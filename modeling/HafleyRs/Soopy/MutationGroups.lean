import HafleyRs.Soopy.MutationPlan

/-!
# What `group_actions` finds (`crates/soopy/src/_7d_mutation_plan.rs:426`)

The fold over the actions touches one source at a time, so what it leaves for a source, and the
conflicts it reports there, are those of the operations on that source alone, in their order
(`grouping_sources`, `mem_grouping_conflicts`). Of several operations on one source the last that is no
replacement stays, else the first replacement with the edits that expect the same content; the conflicts
of the replacements are told against the first, up to the first operation that is no replacement.

| here | there |
| --- | --- |
| `operationsOn`, `othersOn`, `expectedsOn`, `editsOn` | the actions on one source: all, the moves and deletes, what the replacements expect, their edits |
| `mergeOperation`, `collide` | the arms of the loop (441-493) for one source |
| `Clean` | the batch has no conflict, said of the batch as a whole |
-/

namespace Soopy

/-! ## The actions on one source -/

def SourceAction.operation : SourceAction → Option (ActionSource × SourceOperation)
  | .create _ _ => none
  | .replace source expected edits => some (source, .replace expected edits)
  | .move source expected destination => some (source, .move expected destination)
  | .delete source expected => some (source, .delete expected)

def SourceAction.created : SourceAction → Option (SourcePath × Bytes)
  | .create path bytes => some (path, bytes)
  | _ => none

def createsOf (actions : List SourceAction) : List (SourcePath × Bytes) := actions.filterMap (·.created)

def SourceAction.on (source : ActionSource) (a : SourceAction) : Option SourceOperation :=
  a.operation.bind fun e => if e.1 = source then some e.2 else none

def operationsOn (source : ActionSource) (actions : List SourceAction) : List SourceOperation :=
  actions.filterMap (·.on source)

def SourceOperation.IsReplace : SourceOperation → Prop
  | .replace _ _ => True
  | _ => False

instance : DecidablePred SourceOperation.IsReplace
  | .replace _ _ => isTrue trivial
  | .move _ _ => isFalse id
  | .delete _ => isFalse id

def others (ops : List SourceOperation) : List SourceOperation := ops.filter fun op => ¬ op.IsReplace

def SourceOperation.replaceExpected : SourceOperation → Option ContentId
  | .replace expected _ => some expected
  | _ => none

def expecteds (ops : List SourceOperation) : List ContentId := ops.filterMap (·.replaceExpected)

def SourceOperation.editsExpecting (x : ContentId) : SourceOperation → List TextEdit
  | .replace expected edits => if expected = x then edits else []
  | _ => []

def editsExpecting (x : ContentId) (ops : List SourceOperation) : List TextEdit :=
  ops.flatMap (·.editsExpecting x)

abbrev othersOn (source : ActionSource) (actions : List SourceAction) := others (operationsOn source actions)
abbrev expectedsOn (source : ActionSource) (actions : List SourceAction) := expecteds (operationsOn source actions)
abbrev editsOn (source : ActionSource) (x : ContentId) (actions : List SourceAction) :=
  editsExpecting x (operationsOn source actions)

@[simp] theorem operationsOn_nil (source : ActionSource) : operationsOn source [] = [] := rfl

theorem operationsOn_append (source : ActionSource) (as bs : List SourceAction) :
    operationsOn source (as ++ bs) = operationsOn source as ++ operationsOn source bs :=
  List.filterMap_append

theorem operationsOn_cons_some {a : SourceAction} {source : ActionSource} {op : SourceOperation}
    (h : a.operation = some (source, op)) (s : ActionSource) (as : List SourceAction) :
    operationsOn s (a :: as) = (if source = s then [op] else []) ++ operationsOn s as := by
  by_cases hs : source = s
  · simp [operationsOn, SourceAction.on, h, hs]
  · simp [operationsOn, SourceAction.on, h, hs]

theorem operationsOn_cons_none {a : SourceAction} (h : a.operation = none) (s : ActionSource)
    (as : List SourceAction) : operationsOn s (a :: as) = operationsOn s as := by
  simp [operationsOn, SourceAction.on, h]

theorem created_of_operation {a : SourceAction} {e : ActionSource × SourceOperation}
    (h : a.operation = some e) : a.created = none := by
  cases a with
  | create => simp [SourceAction.operation] at h
  | replace => rfl
  | move => rfl
  | delete => rfl

theorem exists_created {a : SourceAction} (h : a.operation = none) : ∃ path bytes, a = .create path bytes := by
  cases a with
  | create path bytes => exact ⟨path, bytes, rfl⟩
  | replace => simp [SourceAction.operation] at h
  | move => simp [SourceAction.operation] at h
  | delete => simp [SourceAction.operation] at h

/-! ## One action -/

/-- What the entry of a source becomes. -/
def mergeOperation : Option SourceOperation → SourceOperation → SourceOperation
  | some (.replace existing edits), .replace expected edits' =>
    if existing = expected then .replace existing (edits ++ edits') else .replace existing edits
  | some (.move x d), .replace _ _ => .move x d
  | some (.delete x), .replace _ _ => .delete x
  | _, op => op

/-- The conflict that an operation meets at the entry of its source. -/
def collide (source : ActionSource) : Option SourceOperation → SourceOperation → List MutationConflict
  | none, _ => []
  | some (.replace existing _), .replace expected _ =>
    if existing = expected then []
    else [.expectedContentMismatch source (canonicalContentIds [existing, expected])]
  | some _, _ => [.sourceOperationCollision source]

theorem groupAction_operation {a : SourceAction} {source : ActionSource} {op : SourceOperation}
    (h : a.operation = some (source, op)) (g : Grouping) :
    (groupAction g a).creates = g.creates ∧
      (∀ s, (groupAction g a).sources[s]? =
        if source = s then some (mergeOperation g.sources[source]? op) else g.sources[s]?) ∧
      (groupAction g a).conflicts = g.conflicts ++ collide source g.sources[source]? op := by
  have hother : ¬ op.IsReplace → (∀ s, (insertNonReplace g source op).sources[s]? =
        if source = s then some (mergeOperation g.sources[source]? op) else g.sources[s]?) ∧
      (insertNonReplace g source op).conflicts = g.conflicts ++ collide source g.sources[source]? op := by
    intro hop
    have hmerge : mergeOperation g.sources[source]? op = op := by
      cases op with
      | replace => exact absurd trivial hop
      | move => cases g.sources[source]? <;> simp [mergeOperation]
      | delete => cases g.sources[source]? <;> simp [mergeOperation]
    refine ⟨fun s => by rw [hmerge, insertNonReplace, BTreeMap.getElem?_insert], ?_⟩
    cases hg : g.sources[source]? with
    | none => simp [insertNonReplace, hg, collide]
    | some o =>
      cases op with
      | replace => exact absurd trivial hop
      | move => cases o <;> simp [insertNonReplace, hg, collide]
      | delete => cases o <;> simp [insertNonReplace, hg, collide]
  cases a with
  | create => simp [SourceAction.operation] at h
  | move source' expected destination =>
    cases h
    obtain ⟨h1, h2⟩ := hother id
    exact ⟨rfl, h1, h2⟩
  | delete source' expected =>
    cases h
    obtain ⟨h1, h2⟩ := hother id
    exact ⟨rfl, h1, h2⟩
  | replace source' expected edits =>
    cases h
    cases hg : g.sources[source]? with
    | none => simp [groupAction, hg, mergeOperation, collide, BTreeMap.getElem?_insert]
    | some o =>
      cases o with
      | move x d => simp [groupAction, hg, mergeOperation, collide]
      | delete x => simp [groupAction, hg, mergeOperation, collide]
      | replace existing existingEdits =>
        by_cases hx : existing = expected
        · simp [groupAction, hg, mergeOperation, collide, hx, BTreeMap.getElem?_insert]
        · simp [groupAction, hg, mergeOperation, collide, hx]

/-! ## The loop over the actions -/

/-- The entry of one source after its operations. -/
def entryAfter (o : Option SourceOperation) (ops : List SourceOperation) : Option SourceOperation :=
  ops.foldl (fun o op => some (mergeOperation o op)) o

/-- The conflicts of one source's operations. -/
def collisions (source : ActionSource) :
    Option SourceOperation → List SourceOperation → List MutationConflict
  | _, [] => []
  | o, op :: ops => collide source o op ++ collisions source (some (mergeOperation o op)) ops

theorem groupAction_create (g : Grouping) (path : SourcePath) (bytes : Bytes) :
    (groupAction g (.create path bytes)).sources = g.sources ∧
      (groupAction g (.create path bytes)).creates = g.creates.insert path bytes := ⟨rfl, rfl⟩

theorem foldl_groupAction_sources (as : List SourceAction) (g : Grouping) (s : ActionSource) :
    (as.foldl groupAction g).sources[s]? = entryAfter g.sources[s]? (operationsOn s as) := by
  induction as generalizing g with
  | nil => rfl
  | cons a as ih =>
    rw [List.foldl_cons, ih]
    cases ha : a.operation with
    | none =>
      obtain ⟨path, bytes, rfl⟩ := exists_created ha
      rw [operationsOn_cons_none ha]
      rfl
    | some e =>
      obtain ⟨source, op⟩ := e
      rw [operationsOn_cons_some ha, (groupAction_operation ha g).2.1 s]
      by_cases hs : source = s
      · subst hs
        simp [entryAfter]
      · simp [hs]

theorem foldl_groupAction_creates (as : List SourceAction) (g : Grouping) :
    (as.foldl groupAction g).creates =
      (createsOf as).foldl (fun m e => m.insert e.1 e.2) g.creates := by
  induction as generalizing g with
  | nil => rfl
  | cons a as ih =>
    rw [List.foldl_cons, ih]
    cases ha : a.operation with
    | none =>
      obtain ⟨path, bytes, rfl⟩ := exists_created ha
      rfl
    | some e =>
      rw [(groupAction_operation ha g).1, createsOf, createsOf,
        List.filterMap_cons_none (created_of_operation ha)]

theorem grouping_sources (as : List SourceAction) (s : ActionSource) :
    (grouping as).sources[s]? = entryAfter none (operationsOn s as) := by
  rw [grouping, foldl_groupAction_sources]
  simp

theorem grouping_creates (as : List SourceAction) :
    (grouping as).creates = (createsOf as).foldl (fun m e => m.insert e.1 e.2) ∅ := by
  rw [grouping, foldl_groupAction_creates]

/-- A path of the list is there twice, or once when it was held before. -/
def Twice (held : SourcePath → Prop) [DecidablePred held] (paths : List SourcePath) (path : SourcePath) :
    Prop := path ∈ paths ∧ 2 ≤ paths.count path + if held path then 1 else 0

theorem twice_nil (held : SourcePath → Prop) [DecidablePred held] (p : SourcePath) : ¬ Twice held [] p :=
  fun h => absurd h.1 (by simp)

theorem twice_cons {held held' : SourcePath → Prop} [DecidablePred held] [DecidablePred held']
    {path : SourcePath} (hheld : ∀ p, held' p ↔ path = p ∨ held p) (p : SourcePath) (paths : List SourcePath) :
    Twice held (path :: paths) p ↔ (path = p ∧ held path) ∨ Twice held' paths p := by
  unfold Twice
  rw [List.count_cons, List.mem_cons]
  by_cases hp : path = p
  · subst hp
    rw [← List.count_pos_iff (a := path) (l := paths)]
    by_cases hm : held path
    · simp [hm, hheld]
    · simp [hm, hheld]
  · have hp' : p ≠ path := Ne.symm hp
    simp [hp, hp', hheld]

/-- The paths told to be there twice by a loop over `path :: paths`: `path` itself, or those of the rest. -/
theorem exists_twice_cons {held held' : SourcePath → Prop} [DecidablePred held] [DecidablePred held']
    {path : SourcePath} (hheld : ∀ p, held' p ↔ path = p ∨ held p) (paths : List SourcePath)
    (c : MutationConflict) : (∃ p, c = .pathCollision p ∧ Twice held (path :: paths) p) ↔
      (c = .pathCollision path ∧ held path) ∨ ∃ p, c = .pathCollision p ∧ Twice held' paths p := by
  simp only [twice_cons hheld, and_or_left, exists_or]
  refine or_congr_left ⟨?_, ?_⟩
  · rintro ⟨p, hc, rfl, hm⟩
    exact ⟨hc, hm⟩
  · rintro ⟨hc, hm⟩
    exact ⟨path, hc, rfl, hm⟩

abbrev Held (m : BTreeMap SourcePath Bytes) (path : SourcePath) : Prop := m[path]?.isSome

theorem mem_foldl_groupAction (as : List SourceAction) (g : Grouping) (c : MutationConflict) :
    c ∈ (as.foldl groupAction g).conflicts ↔ c ∈ g.conflicts ∨
      (∃ path, c = .pathCollision path ∧ Twice (Held g.creates) ((createsOf as).map Prod.fst) path) ∨
      ∃ s, c ∈ collisions s g.sources[s]? (operationsOn s as) := by
  induction as generalizing g with
  | nil => simp [createsOf, collisions, twice_nil]
  | cons a as ih =>
    rw [List.foldl_cons, ih]
    cases ha : a.operation with
    | none =>
      obtain ⟨path, bytes, rfl⟩ := exists_created ha
      have hops : ∀ s, operationsOn s (.create path bytes :: as) = operationsOn s as :=
        fun s => operationsOn_cons_none ha s as
      have hcr : createsOf (.create path bytes :: as) = (path, bytes) :: createsOf as := rfl
      have hconf : c ∈ (groupAction g (.create path bytes)).conflicts ↔
          c ∈ g.conflicts ∨ (c = .pathCollision path ∧ g.creates[path]?.isSome) := by
        unfold groupAction
        by_cases hp : g.creates[path]?.isSome
        · simp [hp]
        · simp [hp]
      have hheld : ∀ p, Held (g.creates.insert path bytes) p ↔ path = p ∨ Held g.creates p := by
        intro p
        rw [Held, BTreeMap.getElem?_insert]
        by_cases hp : path = p
        · simp [hp]
        · simp [hp]
      rw [hcr, List.map_cons, exists_twice_cons hheld, hconf, (groupAction_create g path bytes).1,
        (groupAction_create g path bytes).2]
      simp only [hops, or_assoc]
    | some e =>
      obtain ⟨source, op⟩ := e
      obtain ⟨hc, hs, hconf⟩ := groupAction_operation ha g
      have hcr : createsOf (a :: as) = createsOf as := List.filterMap_cons_none (created_of_operation ha)
      rw [hc, hcr, hconf, List.mem_append]
      have hcol : (∃ s, c ∈ collisions s (groupAction g a).sources[s]? (operationsOn s as)) ∨
          c ∈ collide source g.sources[source]? op ↔
          ∃ s, c ∈ collisions s g.sources[s]? (operationsOn s (a :: as)) := by
        have hone : ∀ s, c ∈ collisions s g.sources[s]? (operationsOn s (a :: as)) ↔
            (source = s ∧ c ∈ collide source g.sources[source]? op) ∨
              c ∈ collisions s (groupAction g a).sources[s]? (operationsOn s as) := by
          intro s
          rw [operationsOn_cons_some ha, hs]
          by_cases heq : source = s
          · subst heq
            simp [collisions]
          · simp [heq]
        simp only [hone, exists_or]
        simp [or_comm]
      rw [← hcol]
      constructor
      · rintro ((h | h) | h | h)
        · exact .inl h
        · exact .inr (.inr (.inr h))
        · exact .inr (.inl h)
        · exact .inr (.inr (.inl h))
      · rintro (h | h | h | h)
        · exact .inl (.inl h)
        · exact .inr (.inl h)
        · exact .inr (.inr h)
        · exact .inl (.inr h)

/-! ## What is left for a source -/

@[simp] theorem others_nil : others [] = [] := rfl
@[simp] theorem others_replace (x : ContentId) (es : List TextEdit) (ops : List SourceOperation) :
    others (.replace x es :: ops) = others ops := by simp [others, SourceOperation.IsReplace]
theorem others_cons {op : SourceOperation} (h : ¬ op.IsReplace) (ops : List SourceOperation) :
    others (op :: ops) = op :: others ops := by simp [others, h]

@[simp] theorem expecteds_nil : expecteds [] = [] := rfl
@[simp] theorem expecteds_replace (x : ContentId) (es : List TextEdit) (ops : List SourceOperation) :
    expecteds (.replace x es :: ops) = x :: expecteds ops := rfl
theorem expecteds_cons {op : SourceOperation} (h : ¬ op.IsReplace) (ops : List SourceOperation) :
    expecteds (op :: ops) = expecteds ops := by
  cases op with
  | replace => exact absurd trivial h
  | move => rfl
  | delete => rfl

theorem eq_replace {op : SourceOperation} (h : op.IsReplace) : ∃ x es, op = .replace x es := by
  cases op with
  | replace x es => exact ⟨x, es, rfl⟩
  | move => exact absurd h id
  | delete => exact absurd h id

theorem mergeOperation_other {op : SourceOperation} (h : ¬ op.IsReplace) (o : Option SourceOperation) :
    mergeOperation o op = op := by
  cases op with
  | replace => exact absurd trivial h
  | move => cases o <;> simp [mergeOperation]
  | delete => cases o <;> simp [mergeOperation]

theorem mergeOperation_keeps {o : SourceOperation} (h : ¬ o.IsReplace) (x : ContentId) (es : List TextEdit) :
    mergeOperation (some o) (.replace x es) = o := by
  cases o with
  | replace => exact absurd trivial h
  | move => rfl
  | delete => rfl

/-- Once something else than a replacement is there, the last such operation stays. -/
theorem entryAfter_other {o : SourceOperation} (h : ¬ o.IsReplace) (ops : List SourceOperation) :
    entryAfter (some o) ops = some ((others ops).getLastD o) := by
  induction ops generalizing o with
  | nil => rfl
  | cons op ops ih =>
    rw [entryAfter, List.foldl_cons, ← entryAfter]
    by_cases hop : op.IsReplace
    · obtain ⟨x, es, rfl⟩ := eq_replace hop
      rw [mergeOperation_keeps h, ih h, others_replace]
    · rw [mergeOperation_other hop, ih hop, others_cons hop, List.getLastD_cons]

theorem entryAfter_replace (x : ContentId) (es : List TextEdit) (ops : List SourceOperation) :
    entryAfter (some (.replace x es)) ops =
      some ((others ops).getLastD (.replace x (es ++ editsExpecting x ops))) := by
  induction ops generalizing es with
  | nil => simp [entryAfter, editsExpecting]
  | cons op ops ih =>
    rw [entryAfter, List.foldl_cons, ← entryAfter]
    by_cases hop : op.IsReplace
    · obtain ⟨y, fs, rfl⟩ := eq_replace hop
      rw [others_replace]
      by_cases hxy : x = y
      · subst hxy
        have hedits : editsExpecting x (.replace x fs :: ops) = fs ++ editsExpecting x ops := by
          simp [editsExpecting, SourceOperation.editsExpecting]
        rw [hedits, ← List.append_assoc, ← ih]
        simp [mergeOperation]
      · have hedits : editsExpecting x (.replace y fs :: ops) = editsExpecting x ops := by
          simp [editsExpecting, SourceOperation.editsExpecting, Ne.symm hxy]
        rw [hedits, ← ih]
        simp [mergeOperation, hxy]
    · rw [mergeOperation_other hop, entryAfter_other hop, others_cons hop, List.getLastD_cons]

/-- Of the operations on one source, what stays when one of them is no replacement. -/
theorem entryAfter_of_others {ops : List SourceOperation} (h : others ops ≠ []) :
    entryAfter none ops = (others ops).getLast? := by
  cases ops with
  | nil => exact absurd rfl h
  | cons op ops =>
    rw [entryAfter, List.foldl_cons, ← entryAfter]
    by_cases hop : op.IsReplace
    · obtain ⟨x, es, rfl⟩ := eq_replace hop
      rw [others_replace] at h ⊢
      rw [show mergeOperation none (.replace x es) = .replace x es from rfl, entryAfter_replace]
      cases ho : others ops with
      | nil => exact absurd ho h
      | cons o os => simp [List.getLast?_cons]
    · rw [mergeOperation_other hop, entryAfter_other hop, others_cons hop, List.getLast?_cons,
        List.getLastD_eq_getLast?]

theorem entryAfter_of_replaces {ops : List SourceOperation} {x : ContentId} (h : others ops = [])
    (hx : x ∈ expecteds ops) (hall : ∀ y ∈ expecteds ops, y = x) :
    entryAfter none ops = some (.replace x (editsExpecting x ops)) := by
  cases ops with
  | nil => simp at hx
  | cons op ops =>
    rw [entryAfter, List.foldl_cons, ← entryAfter]
    by_cases hop : op.IsReplace
    · obtain ⟨y, es, rfl⟩ := eq_replace hop
      obtain rfl : y = x := hall y (by simp)
      rw [others_replace] at h
      rw [show mergeOperation none (.replace y es) = .replace y es from rfl, entryAfter_replace, h]
      simp [editsExpecting, SourceOperation.editsExpecting]
    · rw [others_cons hop] at h
      cases h

theorem entryAfter_isSome {ops : List SourceOperation} : (entryAfter none ops).isSome ↔ ops ≠ [] := by
  cases ops with
  | nil => simp [entryAfter]
  | cons op ops =>
    rw [entryAfter, List.foldl_cons, ← entryAfter]
    by_cases hop : (mergeOperation none op).IsReplace
    · obtain ⟨x, es, hx⟩ := eq_replace hop
      rw [hx, entryAfter_replace]
      simp
    · rw [entryAfter_other hop]
      simp

/-! ## The conflicts at a source -/

theorem mem_collisions_other {o : SourceOperation} (h : ¬ o.IsReplace) (source : ActionSource)
    (ops : List SourceOperation) (c : MutationConflict) :
    c ∈ collisions source (some o) ops ↔ ops ≠ [] ∧ c = .sourceOperationCollision source := by
  have hcol : ∀ {o : SourceOperation} (op), ¬ o.IsReplace →
      collide source (some o) op = [.sourceOperationCollision source] := by
    intro o op ho
    cases o with
    | replace => exact absurd trivial ho
    | move => rfl
    | delete => rfl
  have hkeep : ∀ {o : SourceOperation} (op), ¬ o.IsReplace → ¬ (mergeOperation (some o) op).IsReplace := by
    intro o op ho
    by_cases hop : op.IsReplace
    · obtain ⟨x, es, rfl⟩ := eq_replace hop
      rwa [mergeOperation_keeps ho]
    · rwa [mergeOperation_other hop]
  induction ops generalizing o with
  | nil => simp [collisions]
  | cons op ops ih =>
    have ih : c ∈ collisions source (some (mergeOperation (some o) op)) ops ↔
        ops ≠ [] ∧ c = .sourceOperationCollision source := ih (hkeep op h)
    rw [collisions, List.mem_append, hcol op h, ih]
    simp only [List.mem_singleton, ne_eq, reduceCtorEq, not_false_eq_true, true_and]
    tauto

/-- The replacements before the first operation that is none. -/
def leading (ops : List SourceOperation) : List ContentId :=
  expecteds (ops.takeWhile fun op => op.IsReplace)

theorem leading_replace (x : ContentId) (es : List TextEdit) (ops : List SourceOperation) :
    leading (.replace x es :: ops) = x :: leading ops := by
  have hrep : (SourceOperation.replace x es).IsReplace := trivial
  rw [leading, List.takeWhile_cons_of_pos (by simpa using hrep), expecteds_replace, leading]

theorem leading_other {op : SourceOperation} (h : ¬ op.IsReplace) (ops : List SourceOperation) :
    leading (op :: ops) = [] := by
  rw [leading, List.takeWhile_cons_of_neg (by simpa using h), expecteds_nil]

theorem mem_collisions_replace (source : ActionSource) (x : ContentId) (es : List TextEdit)
    (ops : List SourceOperation) (c : MutationConflict) :
    c ∈ collisions source (some (.replace x es)) ops ↔
      (∃ y ∈ leading ops, x ≠ y ∧
        c = .expectedContentMismatch source (canonicalContentIds [x, y])) ∨
      (others ops ≠ [] ∧ c = .sourceOperationCollision source) := by
  induction ops generalizing es with
  | nil => simp [collisions, leading]
  | cons op ops ih =>
    rw [collisions, List.mem_append]
    by_cases hop : op.IsReplace
    · obtain ⟨y, fs, rfl⟩ := eq_replace hop
      have hmerge : ∃ es', mergeOperation (some (.replace x es)) (.replace y fs) = .replace x es' := by
        unfold mergeOperation
        by_cases hxy : x = y
        · exact ⟨_, if_pos hxy⟩
        · exact ⟨_, if_neg hxy⟩
      obtain ⟨es', hes'⟩ := hmerge
      rw [hes', ih, others_replace, leading_replace]
      simp only [List.mem_cons, exists_eq_or_imp, collide]
      by_cases hxy : x = y
      · simp [hxy]
      · simp [hxy, or_assoc]
    · have hcol : collide source (some (.replace x es)) op = [.sourceOperationCollision source] := by
        cases op with
        | replace => exact absurd trivial hop
        | move => rfl
        | delete => rfl
      rw [mergeOperation_other hop, mem_collisions_other hop, hcol, leading_other hop, others_cons hop]
      simp only [List.mem_singleton, List.not_mem_nil, false_and, exists_false, false_or, ne_eq,
        reduceCtorEq, not_false_eq_true, true_and]
      tauto

theorem mem_collisions (source : ActionSource) (ops : List SourceOperation) (c : MutationConflict) :
    c ∈ collisions source none ops ↔
      (∃ x rest, leading ops = x :: rest ∧ ∃ y ∈ rest, x ≠ y ∧
        c = .expectedContentMismatch source (canonicalContentIds [x, y])) ∨
      (others ops ≠ [] ∧ 2 ≤ ops.length ∧ c = .sourceOperationCollision source) := by
  cases ops with
  | nil => simp [collisions, leading]
  | cons op ops =>
    rw [collisions, show collide source none op = [] from rfl, List.nil_append]
    by_cases hop : op.IsReplace
    · obtain ⟨x, es, rfl⟩ := eq_replace hop
      have hlen : others ops ≠ [] → 2 ≤ (SourceOperation.replace x es :: ops).length := by
        intro ho
        cases ops with
        | nil => exact absurd rfl ho
        | cons => simp
      rw [show mergeOperation none (.replace x es) = .replace x es from rfl, mem_collisions_replace,
        others_replace, leading_replace]
      constructor
      · rintro (⟨y, hy, hne, rfl⟩ | ⟨ho, rfl⟩)
        · exact .inl ⟨x, leading ops, rfl, y, hy, hne, rfl⟩
        · exact .inr ⟨ho, hlen ho, rfl⟩
      · rintro (⟨x', rest, heq, y, hy, hne, rfl⟩ | ⟨ho, -, rfl⟩)
        · cases heq
          exact .inl ⟨y, hy, hne, rfl⟩
        · exact .inr ⟨ho, rfl⟩
    · have hne : others (op :: ops) ≠ [] := by simp [others_cons hop]
      rw [mergeOperation_other hop, mem_collisions_other hop, leading_other hop]
      cases ops with
      | nil => simp
      | cons => simp [hne]

end Soopy
