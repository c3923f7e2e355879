import HafleyRs.Soopy.Spans

/-!
# What a batch of spans answers

A request is read as it is alone when the answer it is given is the one to its own line (`Reads`, `readMany_ok`). Each
request finds the read of its own in the narrowed batch (`Narrowed`), so a batch gives what its requests give one by
one (`spanTextMany_ok`, `spanPositionMany_ok`).
-/

namespace Soopy.Spans
open Machine Checks

/-! ## One read -/

/-- What a request sends. -/
def linesOf (request : ReadRequest) : List Line :=
  match request.source.revision with
  | .worktree _ _ _ => []
  | .commit commit => (spec commit request.source.path).splitOn '\n'

def SourceTree.unread (tree : SourceTree) : List Line := tree.git.getD []

/-- The line whose answer a request is given, and the tree behind it. -/
def SourceTree.next (tree : SourceTree) (request : ReadRequest) : Line := (tree.unread ++ linesOf request).headD []

def SourceTree.after (tree : SourceTree) (request : ReadRequest) : SourceTree :=
  if linesOf request = [] then tree else { tree with git := some (tree.unread ++ linesOf request).tail }

def Ready (host : Host) (tree : SourceTree) : Prop := tree.git.isSome = true ∨ host.openGit = .ok ()

/-- The bytes and their identity, by the answer to a line. -/
def Given (host : Host) (tree : SourceTree) (line : Line) (request : ReadRequest) (s : SourceBytes) : Prop :=
  match request.source.revision with
  | .worktree worktree _ _ => worktree = tree.worktree ∧ host.file request.source.path = .ok s.bytes ∧
      worktreeContent host request.expected s.bytes = .ok s.content
  | .commit commit => Ready host tree ∧ ∃ id, host.catFile line = .object id "blob" s.bytes ∧
      checkBlob commit request.source.path request.expected id = .ok () ∧ s.content = .gitBlob id

structure Reads (host : Host) (tree : SourceTree) (line : Line) (request : ReadRequest) (s : SourceBytes) : Prop where
  repository : request.source.repository = tree.repository
  relative   : ensureRepositoryRelative request.source.path = .ok ()
  given      : Given host tree line request s
  expected   : request.expected.any (· ≠ s.content) = false
  source     : s.source = request.source

theorem openGit_ok {host : Host} {tree : SourceTree} {unread : List Line} :
    openGit host tree = .ok unread ↔ Ready host tree ∧ unread = tree.unread := by
  rw [openGit, Ready, SourceTree.unread]
  cases tree.git with
  | some lines => simp [eq_comm]
  | none =>
    cases host.openGit with
    | ok u => simp [Except.map, eq_comm]
    | error e => simp [Except.map]

theorem readSpecInto_ok {host : Host} {unread rest : List Line} {spec : Line} {id : ObjectId} {bytes : Bytes} :
    readSpecInto host unread spec = .ok ((id, bytes), rest) ↔
      host.catFile ((unread ++ spec.splitOn '\n').headD []) = .object id "blob" bytes ∧
        rest = (unread ++ spec.splitOn '\n').tail := by
  have hne : unread ++ spec.splitOn '\n' ≠ [] := fun h => List.splitOn_ne_nil '\n' spec (List.append_eq_nil_iff.1 h).2
  obtain ⟨line, lines, hlines⟩ := List.exists_cons_of_ne_nil hne
  rw [readSpecInto, hlines]
  simp only [List.headD_cons, List.tail_cons]
  cases host.catFile line with
  | other line => simp
  | object id' kind bytes' =>
    by_cases hkind : kind = "blob"
    · simp [hkind, eq_comm, and_assoc]
    · simp [hkind]

theorem linesOf_worktree {request : ReadRequest} {worktree : WorktreeId} {head : Option ObjectId} {dirty : Bool}
    (h : request.source.revision = .worktree worktree head dirty) : linesOf request = [] := by
  rw [linesOf, h]

theorem linesOf_commit {request : ReadRequest} {commit : ObjectId} (h : request.source.revision = .commit commit) :
    linesOf request = (spec commit request.source.path).splitOn '\n' ∧ linesOf request ≠ [] := by
  have hlines : linesOf request = (spec commit request.source.path).splitOn '\n' := by rw [linesOf, h]
  refine ⟨hlines, ?_⟩
  rw [hlines]
  exact List.splitOn_ne_nil _ _

theorem fetch_ok {host : Host} {tree tree' : SourceTree} {request : ReadRequest} {s : SourceBytes} :
    fetch host tree request = .ok ((s.bytes, s.content), tree') ↔
      Given host tree (tree.next request) request s ∧ tree' = tree.after request := by
  rw [fetch, Given]
  cases hrevision : request.source.revision with
  | worktree worktree head dirty =>
    rw [SourceTree.after, if_pos (linesOf_worktree hrevision)]
    dsimp only
    by_cases hworktree : worktree = tree.worktree
    · rw [if_neg (not_not.2 hworktree)]
      simp only [bind_ok, Except.ok.injEq, Prod.mk.injEq]
      constructor
      · rintro ⟨bytes, hbytes, content, hcontent, ⟨rfl, rfl⟩, rfl⟩
        exact ⟨⟨hworktree, hbytes, hcontent⟩, rfl⟩
      · rintro ⟨⟨-, hbytes, hcontent⟩, rfl⟩
        exact ⟨_, hbytes, _, hcontent, ⟨rfl, rfl⟩, rfl⟩
    · rw [if_pos hworktree]
      exact ⟨fun h => (by cases h), fun h => absurd h.1.1 hworktree⟩
  | commit commit =>
    obtain ⟨hlines, hne⟩ := linesOf_commit hrevision
    rw [SourceTree.after, if_neg hne, SourceTree.next, hlines]
    simp only [bind_ok, Prod.exists, openGit_ok, readSpecInto_ok, Except.ok.injEq, Prod.mk.injEq]
    constructor
    · rintro ⟨unread, ⟨hready, rfl⟩, id, bytes, rest, ⟨hanswer, rfl⟩, u, hblob, ⟨rfl, hcontent⟩, rfl⟩
      exact ⟨⟨hready, id, hanswer, hblob, hcontent.symm⟩, rfl⟩
    · rintro ⟨⟨hready, id, hanswer, hblob, hcontent⟩, rfl⟩
      exact ⟨_, ⟨hready, rfl⟩, id, s.bytes, _, ⟨hanswer, rfl⟩, (), hblob, ⟨rfl, hcontent.symm⟩, rfl⟩

/-- **A read is by the answer to the next line.** -/
theorem readOne_ok {host : Host} {tree tree' : SourceTree} {request : ReadRequest} {s : SourceBytes} :
    readOne host tree request = .ok (s, tree') ↔
      Reads host tree (tree.next request) request s ∧ tree' = tree.after request := by
  rw [readOne]
  by_cases hrepository : request.source.repository = tree.repository
  · rw [if_neg (not_not.2 hrepository)]
    simp only [bind_ok, Prod.exists]
    constructor
    · rintro ⟨u, hrelative, bytes, content, tree'', hfetch, h⟩
      split at h
      · cases h
      · rename_i hexpected
        cases h
        obtain ⟨hgiven, rfl⟩ := fetch_ok (s := ⟨request.source, content, bytes⟩).1 hfetch
        exact ⟨⟨hrepository, hrelative, hgiven, Bool.eq_false_iff.2 hexpected, rfl⟩, rfl⟩
    · rintro ⟨h, rfl⟩
      refine ⟨(), h.relative, s.bytes, s.content, _, fetch_ok.2 ⟨h.given, rfl⟩, ?_⟩
      rw [if_neg (Bool.eq_false_iff.1 h.expected), ← h.source]
  · rw [if_pos hrepository]
    exact ⟨fun h => (by cases h), fun h => absurd h.1.repository hrepository⟩

theorem Reads.unique {host : Host} {tree : SourceTree} {line : Line} {request : ReadRequest} {s s' : SourceBytes}
    (h : Reads host tree line request s) (h' : Reads host tree line request s') : s = s' := by
  have hgiven := h.given
  have hgiven' := h'.given
  rw [Given] at hgiven hgiven'
  have hfields : s.bytes = s'.bytes ∧ s.content = s'.content := by
    cases hrevision : request.source.revision with
    | worktree worktree head dirty =>
      simp only [hrevision] at hgiven hgiven'
      have hbytes : s.bytes = s'.bytes := Except.ok.inj (hgiven.2.1.symm.trans hgiven'.2.1)
      have hcontent := hgiven.2.2
      rw [hbytes, hgiven'.2.2] at hcontent
      exact ⟨hbytes, (Except.ok.inj hcontent).symm⟩
    | commit commit =>
      simp only [hrevision] at hgiven hgiven'
      obtain ⟨-, id, hanswer, -, hcontent⟩ := hgiven
      obtain ⟨-, id', hanswer', -, hcontent'⟩ := hgiven'
      rw [hanswer, Answer.object.injEq] at hanswer'
      exact ⟨hanswer'.2.2, by rw [hcontent, hcontent', hanswer'.1]⟩
  obtain ⟨source, content, bytes⟩ := s
  obtain ⟨source', content', bytes'⟩ := s'
  obtain ⟨rfl, rfl⟩ := hfields
  have hsource : source = source' := h.source.trans h'.source.symm
  rw [hsource]

/-! ## Reads in step -/

/-- The trees of one batch. -/
structure Alike (host : Host) (tree tree' : SourceTree) : Prop where
  repository : tree'.repository = tree.repository
  worktree   : tree'.worktree = tree.worktree
  ready      : Ready host tree' ↔ Ready host tree

/-- Each line whose answer is read is the first one of the request that reads it. -/
def InStep : List Line → List ReadRequest → Prop
  | _, [] => True
  | unread, request :: rest =>
    match linesOf request with
    | [] => InStep unread rest
    | line :: more => (unread ++ line :: more).head? = some line ∧ InStep (unread ++ line :: more).tail rest

def firstLine (request : ReadRequest) : Line := (linesOf request).headD []

section
variable {host : Host} {tree tree' : SourceTree} {line : Line} {request : ReadRequest} {rest : List ReadRequest}
  {s : SourceBytes}

theorem Alike.refl (host : Host) (tree : SourceTree) : Alike host tree tree := ⟨rfl, rfl, Iff.rfl⟩

/-- Of the tree and the line a read takes only the repository and what is given. -/
theorem reads_congr {line' : Line} (hrepository : tree'.repository = tree.repository)
    (hgiven : Given host tree' line' request s ↔ Given host tree line request s) :
    Reads host tree' line' request s ↔ Reads host tree line request s := by
  constructor
  · intro hr
    exact ⟨hr.repository.trans hrepository, hr.relative, hgiven.1 hr.given, hr.expected, hr.source⟩
  · intro hr
    exact ⟨hr.repository.trans hrepository.symm, hr.relative, hgiven.2 hr.given, hr.expected, hr.source⟩

theorem Alike.reads (h : Alike host tree tree') : Reads host tree' line request s ↔ Reads host tree line request s := by
  apply reads_congr h.repository
  rw [Given, Given, h.worktree, h.ready]

/-- A read that went through leaves the process running. -/
theorem Alike.after (h : Alike host tree tree') (hreads : Reads host tree' line request s) :
    Alike host tree (tree'.after request) := by
  rw [SourceTree.after]
  split
  · exact h
  · rename_i hne
    have hready : Ready host tree' := by
      have hgiven := hreads.given
      rw [Given] at hgiven
      cases hrevision : request.source.revision with
      | worktree worktree head dirty => exact absurd (linesOf_worktree hrevision) hne
      | commit commit =>
        simp only [hrevision] at hgiven
        exact hgiven.1
    exact ⟨h.repository, h.worktree, iff_of_true (.inl rfl) (h.ready.1 hready)⟩

theorem reads_any_line (h : linesOf request = []) (line' : Line) :
    Reads host tree line request s ↔ Reads host tree line' request s := by
  apply reads_congr rfl
  rw [Given, Given]
  cases hrevision : request.source.revision with
  | worktree worktree head dirty => exact Iff.rfl
  | commit commit => exact absurd h (linesOf_commit hrevision).2

/-- In step, the next line is the request's own and the rest is in step behind it. -/
theorem InStep.step (h : InStep tree.unread (request :: rest)) :
    (Reads host tree (tree.next request) request s ↔ Reads host tree (firstLine request) request s) ∧
      InStep (tree.after request).unread rest := by
  rw [InStep] at h
  rw [SourceTree.after]
  cases hlines : linesOf request with
  | nil =>
    rw [hlines] at h
    exact ⟨reads_any_line hlines _, by rw [if_pos rfl]; exact h⟩
  | cons line more =>
    rw [hlines] at h
    obtain ⟨hhead, hrest⟩ := h
    have hnext : tree.next request = line := by
      rw [SourceTree.next, hlines, List.headD_eq_head?_getD, hhead]
      rfl
    have hfirst : firstLine request = line := by rw [firstLine, hlines]; rfl
    rw [hnext, hfirst, if_neg (List.cons_ne_nil line more)]
    exact ⟨Iff.rfl, hrest⟩

/-- **In step, requests are read as each is alone.** -/
theorem readMany_ok {requests : List ReadRequest} {sources : List SourceBytes} (halike : Alike host tree tree')
    (h : InStep tree'.unread requests) : (∃ last, readMany host tree' requests = .ok (sources, last)) ↔
      List.Forall₂ (fun r s => Reads host tree (firstLine r) r s) requests sources := by
  induction requests generalizing tree' sources with
  | nil => simp [readMany, eq_comm]
  | cons r rest ih =>
    rw [readMany, List.forall₂_cons_left_iff]
    simp only [bind_ok, Prod.exists, readOne_ok, Except.ok.injEq, Prod.mk.injEq]
    constructor
    · rintro ⟨last, s, behind, ⟨hreads, rfl⟩, more, last', hmore, rfl, rfl⟩
      obtain ⟨hown, hrest⟩ := h.step
      have hall := (ih (halike.after hreads) hrest).1 ⟨_, hmore⟩
      exact ⟨s, more, halike.reads.1 (hown.1 hreads), hall, rfl⟩
    · rintro ⟨s, more, hreads, hall, rfl⟩
      obtain ⟨hown, hrest⟩ := h.step
      have hnext := hown.2 (halike.reads.2 hreads)
      obtain ⟨last, hmore⟩ := (ih (halike.after hnext) hrest).2 hall
      exact ⟨last, s, _, ⟨hnext, rfl⟩, more, last, hmore, rfl, rfl⟩

end

/-! ## Requests narrowed to distinct ones -/

theorem key_injective : Function.Injective ReadRequest.key := by
  intro r r' h
  obtain ⟨hsource, hexpected⟩ := Prod.mk.inj (toLex_inj.1 h)
  have := optKey_injective hexpected
  cases r
  cases r'
  simp_all

/-- The first of each request is kept, and the table and the order tell where. -/
structure Narrowed (asked : List ReadRequest) (s : Narrowing) : Prop where
  unique : s.unique = asked.eraseDups
  index  : ∀ (r : ReadRequest) (i : Nat), s.indexes[r.key]? = some i ↔ s.unique[i]? = some r
  order  : List.Forall₂ (fun r i => s.unique[i]? = some r) asked s.order

theorem Narrowed.narrow {asked : List ReadRequest} {s : Narrowing} (h : Narrowed asked s) (request : ReadRequest) :
    Narrowed (asked ++ [request]) (narrow s request) := by
  have hmem : request ∈ asked ↔ ∃ i, s.indexes[request.key]? = some i := by
    rw [← List.mem_eraseDups, ← h.unique, List.mem_iff_getElem?]
    exact exists_congr fun i => (h.index request i).symm
  rw [Spans.narrow]
  cases hfound : s.indexes[request.key]? with
  | some index =>
    have hin : request ∈ asked := hmem.2 ⟨index, hfound⟩
    refine ⟨?_, h.index, List.rel_append h.order (.cons ((h.index request index).1 hfound) .nil)⟩
    have hnone : [request].removeAll asked = [] := by simp [List.removeAll, hin]
    rw [List.eraseDups_append, hnone, List.eraseDups_nil, List.append_nil]
    exact h.unique
  | none =>
    have hout : request ∉ asked := by
      rw [hmem]
      simp [hfound]
    have hself : [request].removeAll asked = [request] := by simp [List.removeAll, hout]
    have hnew : ∀ i, s.unique[i]? ≠ some request := fun i hi => hout (hmem.2 ⟨i, (h.index request i).2 hi⟩)
    refine ⟨?_, ?_, ?_⟩
    · rw [List.eraseDups_append, hself, h.unique]
      rfl
    · intro r i
      dsimp only
      rw [BTreeMap.getElem?_insert, List.getElem?_append]
      by_cases hkey : request.key = r.key
      · obtain rfl := key_injective hkey
        rw [if_pos rfl]
        split
        · rename_i hlt
          have hother := hnew i
          simp only [hother, iff_false, Option.some.injEq]
          omega
        · rename_i hle
          rw [Option.some.injEq, List.getElem?_singleton]
          split
          · simp only [iff_true]
            omega
          · simp only [reduceCtorEq, iff_false]
            omega
      · rw [if_neg hkey, h.index]
        split
        · exact Iff.rfl
        · rename_i hle
          have hnone : s.unique[i]? = none := List.getElem?_eq_none (Nat.not_lt.1 hle)
          rw [hnone, List.getElem?_singleton]
          have hne : r ≠ request := fun heq => hkey (by rw [heq])
          split
          · simp [hne.symm]
          · simp
    · refine List.rel_append (h.order.imp fun r i hr => ?_) (.cons ?_ .nil)
      · rw [List.getElem?_append_left (List.getElem?_eq_some_iff.1 hr).1]
        exact hr
      · simp

theorem deduplicate_narrowed (requests : List ReadRequest) :
    (deduplicateReadRequests requests).1 = requests.eraseDups ∧
      (∀ (r : ReadRequest) (i j : Nat), requests.eraseDups[i]? = some r → requests.eraseDups[j]? = some r → i = j) ∧
      List.Forall₂ (fun r i => requests.eraseDups[i]? = some r) requests (deduplicateReadRequests requests).2 := by
  have hrun : ∀ asked s, Narrowed asked s → ∀ more : List ReadRequest,
      Narrowed (asked ++ more) (more.foldl narrow s) := by
    intro asked s h more
    induction more generalizing asked s with
    | nil => simpa using h
    | cons r more ih =>
      have hstep := ih _ _ (h.narrow r)
      rw [List.append_assoc] at hstep
      exact hstep
  have hstart : Narrowed [] ⟨∅, [], []⟩ := ⟨rfl, fun r i => by simp, .nil⟩
  have h : Narrowed requests (requests.foldl narrow ⟨∅, [], []⟩) := hrun _ _ hstart requests
  have hindex := h.index
  have horder := h.order
  rw [h.unique] at hindex horder
  refine ⟨h.unique, fun r i j hi hj => ?_, horder⟩
  rw [← hindex] at hi hj
  exact Option.some.inj (hi.symm.trans hj)

/-! ## Batches -/

section
variable {host : Host} {tree : SourceTree}

/-- The read of one request. -/
def alone (host : Host) (tree : SourceTree) (request : ReadRequest) : Except SpanError SourceBytes :=
  (readOne host tree request).map Prod.fst

theorem alone_ok (h : tree.unread = []) {request : ReadRequest} {s : SourceBytes} :
    alone host tree request = .ok s ↔ Reads host tree (firstLine request) request s := by
  have hnext : tree.next request = firstLine request := by rw [SourceTree.next, h, List.nil_append, firstLine]
  rw [← hnext, alone]
  constructor
  · intro hread
    cases hone : readOne host tree request with
    | error e =>
      rw [hone] at hread
      cases hread
    | ok p =>
      rw [hone] at hread
      cases hread
      exact (readOne_ok.1 hone).1
  · intro hreads
    rw [readOne_ok.2 ⟨hreads, rfl⟩]
    rfl

/-- What the batch holds for a request is the read of it alone. -/
theorem batch_source (h : tree.unread = []) {requests : List ReadRequest} {sources : List SourceBytes}
    (hreads : List.Forall₂ (fun r s => Reads host tree (firstLine r) r s) requests.eraseDups sources) {i : Nat}
    {request : ReadRequest} (hi : requests[i]? = some request) :
    ∃ k s, (deduplicateReadRequests requests).2[i]? = some k ∧ sources[k]? = some s ∧
      alone host tree request = .ok s ∧
        (SpanReadBatch.mk sources (deduplicateReadRequests requests).2).source i = .ok s := by
  obtain ⟨k, hk, hunique⟩ := getElem?_of_left (deduplicate_narrowed requests).2.2 hi
  obtain ⟨s, hs, hread⟩ := getElem?_of_left hreads hunique
  refine ⟨k, s, hk, hs, (alone_ok h).2 hread, ?_⟩
  rw [SpanReadBatch.source, hk]
  exact context_ok.2 hs

theorem readForSpans_ok (h : tree.unread = []) {requests : List ReadRequest} (hstep : InStep [] requests.eraseDups)
    {batch : SpanReadBatch} : (∃ last, readForSpans host tree requests = .ok (batch, last)) ↔
      List.Forall₂ (fun r s => Reads host tree (firstLine r) r s) requests.eraseDups batch.unique ∧
        batch.order = (deduplicateReadRequests requests).2 := by
  have hmany := @readMany_ok host tree tree requests.eraseDups batch.unique (.refl host tree) (by rw [h]; exact hstep)
  have hunique := (deduplicate_narrowed requests).1
  rw [← hmany]
  simp only [readForSpans, bind_ok, Prod.exists, hunique, Except.ok.injEq, Prod.mk.injEq]
  constructor
  · rintro ⟨last, sources, last', hread, rfl, rfl⟩
    exact ⟨⟨_, hread⟩, rfl⟩
  · rintro ⟨⟨last, hread⟩, horder⟩
    exact ⟨last, _, _, hread, by rw [← horder], rfl⟩

/-- Where each request can be read alone, so can the distinct ones. -/
theorem exists_reads (h : tree.unread = []) {requests : List ReadRequest}
    (hreads : ∀ r ∈ requests, ∃ s, alone host tree r = .ok s) :
    ∃ sources, List.Forall₂ (fun r s => Reads host tree (firstLine r) r s) requests.eraseDups sources := by
  refine forall₂_of_exists fun r hr => ?_
  obtain ⟨s, hs⟩ := hreads r (List.mem_eraseDups.1 hr)
  exact ⟨s, (alone_ok h).1 hs⟩

theorem getElem?_toRead {A : Type} {f : A → ReadRequest} {requests : List A} {i : Nat} {r : A}
    (h : requests[i]? = some r) : (requests.map f)[i]? = some (f r) := by
  rw [List.getElem?_map, h]
  rfl

def textOf (host : Host) (tree : SourceTree) (request : SpanTextRequest) : Except SpanError SpanText := do
  let source ← alone host tree request.toRead
  let bytes ← slice request.span source.bytes
  .ok ⟨request.span, source.content, bytes⟩

/-- **A batch of texts is what its requests give one by one.** -/
theorem spanTextMany_ok (h : tree.unread = []) {requests : List SpanTextRequest}
    (hstep : InStep [] (requests.map SpanTextRequest.toRead).eraseDups) {answers : List SpanText} :
    (∃ last, spanTextMany host tree requests = .ok (answers, last)) ↔
      requests.mapM (textOf host tree) = .ok answers := by
  have hbody : ∀ batch : SpanReadBatch, (∃ last,
      readForSpans host tree (requests.map SpanTextRequest.toRead) = .ok (batch, last)) →
      (requests.zipIdx.mapM fun p => do
        let source ← batch.source p.2
        let bytes ← slice p.1.span source.bytes
        .ok (⟨p.1.span, source.content, bytes⟩ : SpanText)) = requests.mapM (textOf host tree) := by
    intro batch hbatch
    obtain ⟨hreads, horder⟩ := (readForSpans_ok h hstep).1 hbatch
    refine mapM_zipIdx 0 fun i r hr => ?_
    obtain ⟨k, s, -, -, halone, hsource⟩ := batch_source h hreads (getElem?_toRead hr)
    rw [← horder] at hsource
    rw [Nat.zero_add, textOf, halone, hsource]
  simp only [spanTextMany, bind_ok, Prod.exists, Except.ok.injEq, Prod.mk.injEq]
  constructor
  · rintro ⟨last, batch, last', hread, answers', hanswers, rfl, rfl⟩
    rw [hbody batch ⟨_, hread⟩] at hanswers
    exact hanswers
  · intro hanswers
    have hall : ∀ r ∈ requests.map SpanTextRequest.toRead, ∃ s, alone host tree r = .ok s := by
      intro r hr
      obtain ⟨request, hrequest, rfl⟩ := List.mem_map.1 hr
      obtain ⟨i, hi⟩ := List.mem_iff_getElem?.1 hrequest
      obtain ⟨a, -, ha⟩ := getElem?_of_left (mapM_ok.1 hanswers) hi
      obtain ⟨s, hs, -⟩ := bind_ok.1 ha
      exact ⟨s, hs⟩
    obtain ⟨sources, hsources⟩ := exists_reads h hall
    have hbatch : ∃ last, readForSpans host tree (requests.map SpanTextRequest.toRead) =
        .ok (⟨sources, (deduplicateReadRequests (requests.map SpanTextRequest.toRead)).2⟩, last) :=
      (readForSpans_ok h hstep).2 ⟨hsources, rfl⟩
    obtain ⟨last, hread⟩ := hbatch
    exact ⟨last, _, last, hread, answers, by rw [hbody _ ⟨_, hread⟩]; exact hanswers, rfl, rfl⟩

/-- The checks of one request against its source, and the index of the source. -/
def indexOf (reserve : Nat → Bool) (request : SpanPositionRequest) (bytes : Bytes) :
    Except SpanError NewlineIndex := do
  let storage ← NewlineIndex.storage bytes
  let _ ← slice request.span bytes
  NewlineIndex.checkBudget storage request.newlineIndexByteBudget
  NewlineIndex.build reserve bytes storage

def positionOf (host : Host) (tree : SourceTree) (request : SpanPositionRequest) : Except SpanError SpanPosition := do
  let source ← alone host tree request.toRead
  let index ← indexOf host.reserve request source.bytes
  let start ← index.position request.span.start.toNat
  let stop ← index.position request.span.stop.toNat
  .ok ⟨request.span, source.content, start, stop⟩

theorem indexOf_ok {reserve : Nat → Bool} {request : SpanPositionRequest} {bytes : Bytes} {index : NewlineIndex} :
    indexOf reserve request bytes = .ok index ↔ ∃ n, NewlineIndex.storage bytes = .ok n ∧
      (∃ part, slice request.span bytes = .ok part) ∧
      NewlineIndex.checkBudget n request.newlineIndexByteBudget = .ok () ∧
      NewlineIndex.build reserve bytes n = .ok index := by
  simp only [indexOf, bind_ok]
  constructor
  · rintro ⟨n, hn, part, hpart, u, hbudget, hbuild⟩
    exact ⟨n, hn, ⟨part, hpart⟩, hbudget, hbuild⟩
  · rintro ⟨n, hn, ⟨part, hpart⟩, hbudget, hbuild⟩
    exact ⟨n, hn, part, hpart, (), hbudget, hbuild⟩

theorem mapM_build_ok {reserve : Nat → Bool} {sources : List SourceBytes} {storage : List NewlineIndexStorage}
    (h : List.Forall₂ (fun s n => NewlineIndex.storage s.bytes = .ok n) sources storage)
    {indexes : List NewlineIndex} :
    (sources.zip storage).mapM (fun p => NewlineIndex.build reserve p.1.bytes p.2) = .ok indexes ↔
      List.Forall₂ (fun s index => ∃ n, NewlineIndex.storage s.bytes = .ok n ∧
        NewlineIndex.build reserve s.bytes n = .ok index) sources indexes := by
  induction h generalizing indexes with
  | nil =>
    rw [mapM_ok]
    simp
  | @cons s n sources storage hn _ ih =>
    rw [List.zip_cons_cons, mapM_cons_ok, List.forall₂_cons_left_iff]
    simp only [ih, hn, Except.ok.injEq, exists_eq_left']

/-- **The indexes are built when each request passes its checks**, one for each source. -/
theorem buildNewlineIndexes_ok (h : tree.unread = []) {requests : List SpanPositionRequest}
    {sources : List SourceBytes} (hreads : List.Forall₂ (fun r s => Reads host tree (firstLine r) r s)
      (requests.map SpanPositionRequest.toRead).eraseDups sources) {indexes : List NewlineIndex} :
    buildNewlineIndexes host.reserve
        ⟨sources, (deduplicateReadRequests (requests.map SpanPositionRequest.toRead)).2⟩ requests = .ok indexes ↔
      List.Forall₂ (fun s index => ∃ n, NewlineIndex.storage s.bytes = .ok n ∧
        NewlineIndex.build host.reserve s.bytes n = .ok index) sources indexes ∧
      ∀ r ∈ requests, ∃ s index, alone host tree r.toRead = .ok s ∧ indexOf host.reserve r s.bytes = .ok index := by
  simp only [buildNewlineIndexes, bind_ok, mapM_ok]
  constructor
  · rintro ⟨storage, hstorage, u, hchecks, hbuild⟩
    have hindexes := (mapM_build_ok hstorage).1 (mapM_ok.2 hbuild)
    refine ⟨hindexes, fun r hr => ?_⟩
    obtain ⟨i, hi⟩ := List.mem_iff_getElem?.1 hr
    obtain ⟨k, s, hk, hs, halone, hsource⟩ := batch_source h hreads (getElem?_toRead hi)
    have hcheck := each_ok.1 hchecks (r, i) (List.mem_zipIdx_iff_getElem?.2 hi)
    simp only [bind_ok, context_ok, hk, hsource, Option.some.injEq, Except.ok.injEq] at hcheck
    obtain ⟨k', rfl, s', rfl, part, hpart, n, hn, hbudget⟩ := hcheck
    obtain ⟨n', hn', hstored⟩ := getElem?_of_left hstorage hs
    obtain ⟨index, -, n'', hstored', hbuilt⟩ := getElem?_of_left hindexes hs
    rw [hn'] at hn
    cases hn
    rw [hstored] at hstored'
    cases hstored'
    exact ⟨s, index, halone, indexOf_ok.2 ⟨_, hstored, ⟨part, hpart⟩, hbudget, hbuilt⟩⟩
  · rintro ⟨hindexes, hall⟩
    have hstored : ∀ s ∈ sources, ∃ n, NewlineIndex.storage s.bytes = .ok n := by
      intro s hs
      obtain ⟨j, hj⟩ := List.mem_iff_getElem?.1 hs
      obtain ⟨index, -, n, hn, -⟩ := getElem?_of_left hindexes hj
      exact ⟨n, hn⟩
    obtain ⟨storage, hstorage⟩ := forall₂_of_exists hstored
    refine ⟨storage, hstorage, (), each_ok.2 ?_, mapM_ok.1 ((mapM_build_ok hstorage).2 hindexes)⟩
    rintro ⟨r, i⟩ hp
    have hi := List.mem_zipIdx_iff_getElem?.1 hp
    obtain ⟨k, s, hk, hs, halone, hsource⟩ := batch_source h hreads (getElem?_toRead hi)
    obtain ⟨s', index, halone', hindex⟩ := hall r (List.mem_of_getElem? hi)
    rw [halone] at halone'
    cases halone'
    obtain ⟨n, hn, ⟨part, hpart⟩, hbudget, -⟩ := indexOf_ok.1 hindex
    obtain ⟨n', hn', hstored'⟩ := getElem?_of_left hstorage hs
    rw [hn] at hstored'
    cases hstored'
    simp only [bind_ok, context_ok, hk, hsource, Option.some.injEq, Except.ok.injEq]
    exact ⟨k, rfl, s, rfl, part, hpart, n, hn', hbudget⟩

/-- **A batch of positions is what its requests give one by one.** -/
theorem spanPositionMany_ok (h : tree.unread = []) {requests : List SpanPositionRequest}
    (hstep : InStep [] (requests.map SpanPositionRequest.toRead).eraseDups) {answers : List SpanPosition} :
    (∃ last, spanPositionMany host tree requests = .ok (answers, last)) ↔
      requests.mapM (positionOf host tree) = .ok answers := by
  have hbody : ∀ (batch : SpanReadBatch) (indexes : List NewlineIndex), (∃ last,
      readForSpans host tree (requests.map SpanPositionRequest.toRead) = .ok (batch, last)) →
      buildNewlineIndexes host.reserve batch requests = .ok indexes →
      (requests.zipIdx.mapM fun p => do
        let sourceIndex ← context batch.order[p.2]? .noReadIndex
        let source ← batch.source p.2
        let index ← context indexes[sourceIndex]? .noIndex
        let start ← index.position p.1.span.start.toNat
        let stop ← index.position p.1.span.stop.toNat
        .ok (⟨p.1.span, source.content, start, stop⟩ : SpanPosition)) = requests.mapM (positionOf host tree) := by
    rintro ⟨sources, order⟩ indexes hbatch hbuild
    obtain ⟨hreads, rfl⟩ := (readForSpans_ok h hstep).1 hbatch
    obtain ⟨hindexes, hall⟩ := (buildNewlineIndexes_ok h hreads).1 hbuild
    refine mapM_zipIdx 0 fun i r hr => ?_
    obtain ⟨k, s, hk, hs, halone, hsource⟩ := batch_source h hreads (getElem?_toRead hr)
    obtain ⟨s', index, halone', hindex⟩ := hall r (List.mem_of_getElem? hr)
    rw [halone] at halone'
    cases halone'
    obtain ⟨index', hindex', n, hn, hbuilt⟩ := getElem?_of_left hindexes hs
    obtain ⟨n', hn', -, -, hbuilt'⟩ := indexOf_ok.1 hindex
    rw [hn] at hn'
    cases hn'
    rw [hbuilt] at hbuilt'
    cases hbuilt'
    rw [Nat.zero_add, positionOf, halone, hsource, hk]
    change (context indexes[k]? .noIndex >>= _) = (indexOf host.reserve r s.bytes >>= _)
    rw [context_ok.2 hindex', hindex]
  simp only [spanPositionMany, bind_ok, Prod.exists, Except.ok.injEq, Prod.mk.injEq]
  constructor
  · rintro ⟨last, batch, last', hread, indexes, hbuild, answers', hanswers, rfl, rfl⟩
    rw [hbody batch indexes ⟨_, hread⟩ hbuild] at hanswers
    exact hanswers
  · intro hanswers
    have hgiven : ∀ r ∈ requests, ∃ s index, alone host tree r.toRead = .ok s ∧
        indexOf host.reserve r s.bytes = .ok index := by
      intro r hr
      obtain ⟨i, hi⟩ := List.mem_iff_getElem?.1 hr
      obtain ⟨a, -, ha⟩ := getElem?_of_left (mapM_ok.1 hanswers) hi
      obtain ⟨s, hs, hrest⟩ := bind_ok.1 ha
      obtain ⟨index, hindex, -⟩ := bind_ok.1 hrest
      exact ⟨s, index, hs, hindex⟩
    have hall : ∀ r ∈ requests.map SpanPositionRequest.toRead, ∃ s, alone host tree r = .ok s := by
      intro r hr
      obtain ⟨request, hrequest, rfl⟩ := List.mem_map.1 hr
      obtain ⟨s, index, hs, -⟩ := hgiven request hrequest
      exact ⟨s, hs⟩
    obtain ⟨sources, hsources⟩ := exists_reads h hall
    have hbatch : ∃ last, readForSpans host tree (requests.map SpanPositionRequest.toRead) =
        .ok (⟨sources, (deduplicateReadRequests (requests.map SpanPositionRequest.toRead)).2⟩, last) :=
      (readForSpans_ok h hstep).2 ⟨hsources, rfl⟩
    obtain ⟨last, hread⟩ := hbatch
    -- each distinct read is of some request, so its index can be built
    have hbuilt : ∀ s ∈ sources, ∃ index n, NewlineIndex.storage s.bytes = .ok n ∧
        NewlineIndex.build host.reserve s.bytes n = .ok index := by
      intro s hs
      obtain ⟨j, hj⟩ := List.mem_iff_getElem?.1 hs
      obtain ⟨r, hr, hread⟩ := getElem?_of_left hsources.flip hj
      obtain ⟨request, hrequest, rfl⟩ := List.mem_map.1 (List.mem_eraseDups.1 (List.mem_of_getElem? hr))
      obtain ⟨s', index, halone, hindex⟩ := hgiven request hrequest
      rw [(alone_ok h).2 hread] at halone
      cases halone
      obtain ⟨n, hn, -, -, hbuild⟩ := indexOf_ok.1 hindex
      exact ⟨index, n, hn, hbuild⟩
    obtain ⟨indexes, hindexes⟩ := forall₂_of_exists hbuilt
    have hbuild := (buildNewlineIndexes_ok h hsources).2 ⟨hindexes, hgiven⟩
    exact ⟨last, _, last, hread, indexes, hbuild, answers, by rw [hbody _ _ ⟨_, hread⟩ hbuild]; exact hanswers,
      rfl, rfl⟩

end

end Soopy.Spans
