import HafleyRs.BoopStore.MessageLine
import HafleyRs.BoopStore.Timestamps

/-!
# The route registry as JSON (`crates/boop-store/src/bus.rs`)

| here | there |
| --- | --- |
| `RouteKind.ofStr`, `HarnessId.parse` | bus.rs:103, harness_id.rs:48 |
| `RouteRow` | a row of `agent_route` (sql/40_schema.sql:161) |
| `RouteRow.route`, `Route.row` | `routes_in` (bus.rs:1207), the columns of `upsert_route` (1243) |
| `routeFromValue`, `routeToValue` | bus.rs:371, 1299 |
| `RouteStore` | the tables `agent_route`, `agent_route_liveness` and `mail_import`, each by its key |
| `upsertRoute`, `deleteRoute` | bus.rs:1243, and the `DELETE` of 1345 with its cascade |
| `Registry` | `Map<String, Value>`, in the order of insertion |
| `registryUpdate` | bus.rs:1331 |
| `importRegistryFile`, `outranks` | bus.rs:945, 978 |

Both writers are folds over the rows of a map, each of its own id; `RouteStore.entry` is what the store has under one
id, and a fold shows there what its one row does (`entry_foldl`). A call that fails rolls its transaction back.
-/

namespace BoopStore

/-! ## Kinds and harnesses -/

def RouteKind.ofStr : String → RouteKind
  | "lane" => lane
  | "coordinator" => coordinator
  | "native" => native
  | "shell" => shell
  | value => other value

def HarnessId.all : List HarnessId := [claude, codex, kimi, omp, opencode]

def HarnessId.parse (value : String) : Option HarnessId :=
  let value := (trim value).map Char.toLower
  all.find? fun harness => harness.asStr = value

theorem RouteKind.asStr_ofStr (value : String) : (RouteKind.ofStr value).asStr = value := by
  unfold RouteKind.ofStr
  split <;> rfl

theorem HarnessId.parse_asStr (harness : HarnessId) : HarnessId.parse harness.asStr = some harness := by
  cases harness <;> decide +kernel

/-! ## Rows and values -/

structure RouteRow where
  kind            : String
  harness         : Option String
  tmux            : Option String
  cwd             : Option String
  model           : Option String
  mode            : Option String
  sessionId       : Option String
  sourcePath      : Option String
  parent          : Option String
  goal            : Option String
  registeredAt    : Option String
  baseSha         : Option String
  worktreeDir     : Option String
  appServerSocket : Option String
deriving DecidableEq, Repr

def RouteRow.route (row : RouteRow) : Route where
  kind := .ofStr row.kind
  harness := row.harness.bind HarnessId.parse
  tmux := row.tmux
  cwd := row.cwd
  model := row.model
  mode := row.mode
  sessionId := row.sessionId
  sourcePath := row.sourcePath
  parent := row.parent
  goal := row.goal
  registeredAt := row.registeredAt
  baseSha := row.baseSha
  worktreeDir := row.worktreeDir
  appServerSocket := row.appServerSocket

def Route.row (r : Route) : RouteRow where
  kind := r.kind.asStr
  harness := r.harness.map HarnessId.asStr
  tmux := r.tmux
  cwd := r.cwd
  model := r.model
  mode := r.mode
  sessionId := r.sessionId
  sourcePath := r.sourcePath
  parent := r.parent
  goal := r.goal
  registeredAt := r.registeredAt
  baseSha := r.baseSha
  worktreeDir := r.worktreeDir
  appServerSocket := r.appServerSocket

def routeFromValue (entry : Json) : Route :=
  let field := stringField entry
  match entry with
  | .obj _ =>
    { kind := ((field "kind").map RouteKind.ofStr).getD .lane
      harness := (field "harness").bind HarnessId.parse
      tmux := field "tmux"
      cwd := field "cwd"
      model := field "model"
      mode := field "mode"
      sessionId := field "sessionId" <|> field "session_id"
      sourcePath := field "sourcePath" <|> field "source_path"
      parent := field "parent"
      goal := field "goal"
      registeredAt := field "registeredAt" <|> field "registered_at"
      baseSha := field "baseSha" <|> field "base_sha"
      worktreeDir := field "worktreeDir" <|> field "worktree_dir"
      appServerSocket := field "appServerSocket" }
  | .str sessionId => { Route.default with kind := .lane, sessionId := some sessionId }
  | _ => .default

def Route.pairs (r : Route) : List (String × Option String) :=
  [("kind", some r.kind.asStr), ("harness", r.harness.map HarnessId.asStr), ("tmux", r.tmux), ("cwd", r.cwd),
    ("model", r.model), ("mode", r.mode), ("sessionId", r.sessionId), ("sourcePath", r.sourcePath),
    ("parent", r.parent), ("goal", r.goal), ("registeredAt", r.registeredAt), ("baseSha", r.baseSha),
    ("worktreeDir", r.worktreeDir), ("appServerSocket", r.appServerSocket)]

/-- The fields that have a value. -/
def present (pairs : List (String × Option String)) : List (String × Json) :=
  pairs.filterMap fun p => p.2.map fun text => (p.1, .str text)

def routeToValue (r : Route) : Json := .obj (present r.pairs)

theorem mem_present {pairs : List (String × Option String)} {key : String} {v : Json} :
    (key, v) ∈ present pairs ↔ ∃ text, (key, some text) ∈ pairs ∧ v = .str text := by
  rw [present, List.mem_filterMap]
  constructor
  · rintro ⟨⟨key', text⟩, hmem, heq⟩
    obtain ⟨text', rfl, heq⟩ := Option.map_eq_some_iff.1 heq
    cases heq
    exact ⟨text', hmem, rfl⟩
  · rintro ⟨text, hmem, rfl⟩
    exact ⟨_, hmem, rfl⟩

theorem present_nodup {pairs : List (String × Option String)} (h : (pairs.map Prod.fst).Nodup) :
    ((present pairs).map Prod.fst).Nodup := by
  induction pairs with
  | nil => exact List.nodup_nil
  | cons p pairs ih =>
    obtain ⟨hp, hpairs⟩ := List.nodup_cons.1 h
    obtain ⟨key, text⟩ := p
    cases text with
    | none => exact ih hpairs
    | some text =>
      refine List.nodup_cons.2 ⟨fun hmem => hp ?_, ih hpairs⟩
      obtain ⟨f, hf, hkey⟩ := List.mem_map.1 hmem
      obtain ⟨text', hmem, -⟩ := mem_present.1 hf
      exact List.mem_map.2 ⟨_, hmem, hkey⟩

/-- A field is read as it was written, also where it was left out. -/
theorem stringField_present {pairs : List (String × Option String)} (h : (pairs.map Prod.fst).Nodup) {key : String}
    {text : Option String} (hmem : (key, text) ∈ pairs) : stringField (.obj (present pairs)) key = text := by
  cases text with
  | some text =>
    rw [stringField, Json.get_of_mem (present_nodup h) (mem_present.2 ⟨text, hmem, rfl⟩)]
    rfl
  | none =>
    have hnone : (present pairs).find? (fun f => f.1 = key) = none := by
      refine List.find?_eq_none.2 fun f hf hkey => ?_
      obtain ⟨text, hmem', -⟩ := mem_present.1 hf
      have heq := List.inj_on_of_nodup_map h hmem' hmem (by simpa using hkey)
      cases congrArg Prod.snd heq
    rw [stringField, Json.get, hnone]
    rfl

theorem stringField_absent {pairs : List (String × Option String)} {key : String} (h : key ∉ pairs.map Prod.fst) :
    stringField (.obj (present pairs)) key = none := by
  have hnone : (present pairs).find? (fun f => f.1 = key) = none := by
    refine List.find?_eq_none.2 fun f hf hkey => h ?_
    obtain ⟨text, hmem, -⟩ := mem_present.1 hf
    have hkey : f.1 = key := by simpa using hkey
    exact hkey ▸ List.mem_map.2 ⟨_, hmem, rfl⟩
  rw [stringField, Json.get, hnone]
  rfl

theorem Route.pairs_nodup (r : Route) : (r.pairs.map Prod.fst).Nodup := by simp [Route.pairs]

/-- A stored route is its value, read. -/
theorem routeFromValue_routeToValue (row : RouteRow) : routeFromValue (routeToValue row.route) = row.route := by
  have hfield : ∀ key text, (key, text) ∈ row.route.pairs → stringField (routeToValue row.route) key = text :=
    fun _ _ hmem => stringField_present row.route.pairs_nodup hmem
  have hkind : ((stringField (routeToValue row.route) "kind").map RouteKind.ofStr).getD .lane = row.route.kind := by
    rw [hfield _ (some row.route.kind.asStr) (by simp [Route.pairs])]
    simp [RouteRow.route, RouteKind.asStr_ofStr]
  have hharness : (stringField (routeToValue row.route) "harness").bind HarnessId.parse = row.route.harness := by
    rw [hfield _ (row.route.harness.map HarnessId.asStr) (by simp [Route.pairs])]
    cases row.route.harness with
    | none => rfl
    | some harness => exact harness.parse_asStr
  have hor : ∀ key key' text, (key, text) ∈ row.route.pairs → key' ∉ row.route.pairs.map Prod.fst →
      (stringField (routeToValue row.route) key <|> stringField (routeToValue row.route) key') = text := by
    intro key key' text hmem hkey'
    rw [hfield _ _ hmem, show stringField (routeToValue row.route) key' = none from stringField_absent hkey']
    simp
  have htmux : stringField (routeToValue row.route) "tmux" = row.route.tmux := hfield _ _ (by simp [Route.pairs])
  have hcwd : stringField (routeToValue row.route) "cwd" = row.route.cwd := hfield _ _ (by simp [Route.pairs])
  have hmodel : stringField (routeToValue row.route) "model" = row.route.model := hfield _ _ (by simp [Route.pairs])
  have hmode : stringField (routeToValue row.route) "mode" = row.route.mode := hfield _ _ (by simp [Route.pairs])
  have hparent : stringField (routeToValue row.route) "parent" = row.route.parent := hfield _ _ (by simp [Route.pairs])
  have hgoal : stringField (routeToValue row.route) "goal" = row.route.goal := hfield _ _ (by simp [Route.pairs])
  have hsocket : stringField (routeToValue row.route) "appServerSocket" = row.route.appServerSocket :=
    hfield _ _ (by simp [Route.pairs])
  have hsession := hor "sessionId" "session_id" row.route.sessionId
    (by simp [Route.pairs]) (by simp [Route.pairs])
  have hsource := hor "sourcePath" "source_path" row.route.sourcePath
    (by simp [Route.pairs]) (by simp [Route.pairs])
  have hstamp := hor "registeredAt" "registered_at" row.route.registeredAt
    (by simp [Route.pairs]) (by simp [Route.pairs])
  have hsha := hor "baseSha" "base_sha" row.route.baseSha
    (by simp [Route.pairs]) (by simp [Route.pairs])
  have htree := hor "worktreeDir" "worktree_dir" row.route.worktreeDir
    (by simp [Route.pairs]) (by simp [Route.pairs])
  rw [show routeToValue row.route = .obj (present row.route.pairs) from rfl] at *
  simp only [routeFromValue, hkind, hharness, htmux, hcwd, hmodel, hmode, hsession, hsource, hparent, hgoal, hstamp,
    hsha, htree, hsocket]

/-- Every field of an object is in it. -/
theorem Json.sameFields_self {fs gs : List (String × Json)} (h : (gs.map Prod.fst).Nodup)
    (hfs : ∀ f ∈ fs, f ∈ gs ∧ f.2.same f.2 = true) : Json.sameFields fs gs = true := by
  induction fs with
  | nil => rfl
  | cons f fs ih =>
    obtain ⟨⟨hf, hsame⟩, hrest⟩ := List.forall_mem_cons.1 hfs
    obtain ⟨key, v⟩ := f
    rw [Json.sameFields, Json.get_of_mem h hf, ih hrest]
    simpa using hsame

theorem Json.same_obj_self {fs : List (String × Json)} (h : (fs.map Prod.fst).Nodup)
    (hfs : ∀ f ∈ fs, f.2.same f.2 = true) : (Json.obj fs).same (.obj fs) = true := by
  rw [Json.same, Json.sameFields_self h fun f hf => ⟨hf, hfs f hf⟩]
  simp

/-! ## The tables -/

structure Liveness where
  misses     : Int
  dead       : Int
  lastReason : Option String
deriving DecidableEq, Repr

structure ImportMark where
  offset : Int
  digest : String
deriving DecidableEq, Repr

structure RouteStore where
  routes   : BTreeMap String RouteRow
  liveness : BTreeMap String Liveness
  marks    : BTreeMap String ImportMark

/-- A `Map` of values: no id twice. -/
abbrev Registry := Table (Prod.fst : String × Json → String)

/-- A map from the fields of an object: the last value of a name stays. -/
def registryOf (fields : List (String × Json)) : Registry :=
  fields.foldl (Table.upsert ⟨fun _ new => new, fun _ _ _ => rfl⟩) .empty

namespace RouteStore

def routesIn (s : RouteStore) : List (String × Route) := s.routes.toList.map fun e => (e.1, e.2.route)

def upsertRoute (s : RouteStore) (id : String) (r : Route) : RouteStore :=
  { s with routes := s.routes.insert id r.row, liveness := s.liveness.erase id }

def deleteRoute (s : RouteStore) (id : String) : RouteStore :=
  { s with routes := s.routes.erase id, liveness := s.liveness.erase id }

def registry (s : RouteStore) : Registry where
  rows := s.routesIn.map fun e => (e.1, routeToValue e.2)
  unique := by
    have hkeys : (s.routesIn.map fun e => (e.1, routeToValue e.2)).map Prod.fst = s.routes.toList.map Prod.fst := by
      simp [routesIn, Function.comp_def]
    rw [hkeys, List.nodup_iff_pairwise_ne, List.pairwise_map]
    exact (BTreeMap.toList_sorted s.routes).imp ne_of_lt

/-- `before.get(id) == Some(entry)` -/
def holds (before : Registry) (e : String × Json) : Bool := (before.get e.1).any fun b => b.2.same e.2

def registryUpdate (s : RouteStore) (mutate : Registry → Except String Registry) : Except String RouteStore := do
  let before := s.registry
  let after ← mutate before
  let s := (before.keys.filter fun id => id ∉ after.keys).foldl deleteRoute s
  return after.rows.foldl (fun s e => if holds before e then s else s.upsertRoute e.1 (routeFromValue e.2)) s

def importMark (s : RouteStore) (path : String) : ImportMark := s.marks[path]?.getD ⟨0, ""⟩

/-- The route under `id` in `routes_in(store)`. -/
def held (s : RouteStore) (id : String) : Option Route := s.routes[id]?.map RouteRow.route

/-- `text` is what the file holds, if it can be read; `hashHex` is the digest of a text. -/
def importRegistryFile (json : SerdeJson) (hashHex : String → String) (s : RouteStore) (path : String)
    (text : Option String) : Except String RouteStore :=
  match text with
  | none => .ok s
  | some text =>
    if blank text then .ok s
    else if (s.importMark path).digest = hashHex text then .ok s
    else match json.fromStr text with
      | none => .error ("registry.json is invalid JSON at " ++ path)
      | some (.obj fields) =>
        let s' := (registryOf fields).rows.foldl (fun s' e =>
          if outranks (s.held e.1) (routeFromValue e.2) then s' else s'.upsertRoute e.1 (routeFromValue e.2)) s
        .ok { s' with marks := s'.marks.insert path ⟨0, hashHex text⟩ }
      | some _ => .ok s

/-! ## What the store has under one id -/

def entry (s : RouteStore) (id : String) : Option RouteRow × Option Liveness := (s.routes[id]?, s.liveness[id]?)

theorem entry_upsert (s : RouteStore) (id : String) (r : Route) (k : String) :
    (s.upsertRoute id r).entry k = if id = k then (some r.row, none) else s.entry k := by
  rw [entry, upsertRoute, BTreeMap.getElem?_insert, BTreeMap.getElem?_erase, entry]
  by_cases h : id = k <;> simp [h]

theorem entry_delete (s : RouteStore) (id k : String) :
    (s.deleteRoute id).entry k = if id = k then (none, none) else s.entry k := by
  rw [entry, deleteRoute, BTreeMap.getElem?_erase, BTreeMap.getElem?_erase, entry]
  by_cases h : id = k <;> simp [h]

theorem entry_foldl_delete (ids : List String) (s : RouteStore) (k : String) :
    (ids.foldl deleteRoute s).entry k = if k ∈ ids then (none, none) else s.entry k := by
  induction ids generalizing s with
  | nil => rfl
  | cons id ids ih =>
    rw [List.foldl_cons, ih, entry_delete]
    by_cases hk : k ∈ ids
    · simp [hk]
    · by_cases hid : id = k
      · simp [hid]
      · simp [hk, hid, Ne.symm hid]

/-- Rows of different ids, written but for those that `skip` names. -/
theorem entry_foldl (skip : String × Json → Bool) {es : List (String × Json)} (h : (es.map Prod.fst).Nodup)
    (s : RouteStore) (k : String) :
    (es.foldl (fun s e => if skip e then s else s.upsertRoute e.1 (routeFromValue e.2)) s).entry k =
      match es.find? fun e => e.1 = k with
      | some e => if skip e then s.entry k else (some (routeFromValue e.2).row, none)
      | none => s.entry k := by
  induction es generalizing s with
  | nil => rfl
  | cons e es ih =>
    obtain ⟨he, hes⟩ := List.nodup_cons.1 h
    rw [List.foldl_cons, ih hes]
    by_cases hk : e.1 = k
    · have hnone : (es.find? fun e' => e'.1 = k) = none := by
        refine List.find?_eq_none.2 fun e' he' heq => he ?_
        have heq : e'.1 = k := by simpa using heq
        exact List.mem_map.2 ⟨e', he', heq.trans hk.symm⟩
      rw [hnone, List.find?_cons_of_pos (by simpa using hk)]
      by_cases hskip : skip e = true
      · simp [hskip]
      · simp [hskip, entry_upsert, hk]
    · have hstep : (if skip e then s else s.upsertRoute e.1 (routeFromValue e.2)).entry k = s.entry k := by
        by_cases hskip : skip e = true
        · rw [if_pos hskip]
        · rw [if_neg hskip, entry_upsert, if_neg hk]
      rw [hstep, List.find?_cons_of_neg (by simpa using hk)]

theorem marks_foldl (skip : String × Json → Bool) (es : List (String × Json)) (s : RouteStore) :
    (es.foldl (fun s e => if skip e then s else s.upsertRoute e.1 (routeFromValue e.2)) s).marks = s.marks := by
  induction es generalizing s with
  | nil => rfl
  | cons e es ih =>
    rw [List.foldl_cons, ih]
    by_cases hskip : skip e = true
    · rw [if_pos hskip]
    · rw [if_neg hskip]
      rfl

theorem marks_foldl_delete (ids : List String) (s : RouteStore) : (ids.foldl deleteRoute s).marks = s.marks := by
  induction ids generalizing s with
  | nil => rfl
  | cons id ids ih => exact ih _

/-! ## A mutation -/

/-- A value that the mutation left as it was counts as unchanged. -/
theorem holds_self {s : RouteStore} {id : String} {e : String × Json} (h : s.registry.get id = some e) :
    holds s.registry e = true := by
  have hkey : e.1 = id := Table.key_of_get h
  obtain ⟨⟨id', r⟩, -, rfl⟩ := List.mem_map.1 (List.mem_of_find?_eq_some h)
  rw [holds, hkey, h, Option.any_some]
  refine Json.same_obj_self (present_nodup r.pairs_nodup) fun f hf => ?_
  obtain ⟨text, -, hvalue⟩ := mem_present.1 hf
  rw [hvalue, Json.same]
  exact decide_eq_true rfl

/-- What an update leaves: removed ids are gone, a written one has the route of its new value and no liveness, and
    the rest is as it was. -/
structure Updated (s : RouteStore) (after : Registry) (s' : RouteStore) : Prop where
  removed : ∀ id ∈ s.registry.keys, id ∉ after.keys → s'.entry id = (none, none)
  written : ∀ id e, after.get id = some e → holds s.registry e = false →
    s'.entry id = (some (routeFromValue e.2).row, none)
  kept    : ∀ id e, after.get id = some e → holds s.registry e = true → s'.entry id = s.entry id
  same    : ∀ id, after.get id = s.registry.get id → s'.entry id = s.entry id
  marks   : s'.marks = s.marks

theorem registryUpdate_ok {s : RouteStore} {mutate : Registry → Except String Registry} {after : Registry}
    (h : mutate s.registry = .ok after) : ∃ s', s.registryUpdate mutate = .ok s' ∧ s.Updated after s' := by
  obtain ⟨s', hok⟩ : ∃ s', s.registryUpdate mutate = .ok s' := ⟨_, by rw [registryUpdate, h]; rfl⟩
  refine ⟨s', hok, ?_⟩
  rw [registryUpdate, h] at hok
  cases hok
  have hentry := fun k => entry_foldl (holds s.registry) after.unique
    ((s.registry.keys.filter fun id => id ∉ after.keys).foldl deleteRoute s) k
  have hmarks := (marks_foldl (holds s.registry) after.rows
    ((s.registry.keys.filter fun id => id ∉ after.keys).foldl deleteRoute s)).trans (marks_foldl_delete _ s)
  simp only [entry_foldl_delete, List.mem_filter, decide_eq_true_eq] at hentry
  generalize after.rows.foldl _ _ = s' at hentry hmarks ⊢
  have hin : ∀ {id e}, after.get id = some e → id ∈ after.keys := fun hget =>
    Table.get_isSome.1 (by rw [hget]; rfl)
  have hkept : ∀ id e, after.get id = some e → holds s.registry e = true → s'.entry id = s.entry id := by
    intro id e hget hholds
    refine (hentry id).trans ?_
    rw [show after.rows.find? (fun e => e.1 = id) = some e from hget]
    simp only [hholds, if_true]
    exact if_neg fun hdeleted => hdeleted.2 (hin hget)
  refine ⟨fun id hid hgone => ?_, fun id e hget hholds => ?_, hkept, fun id hsame => ?_, ?_⟩
  · have hnone : after.get id = none := by
      rw [← Option.not_isSome_iff_eq_none, Table.get_isSome]
      exact hgone
    refine (hentry id).trans ?_
    rw [show after.rows.find? (fun e => e.1 = id) = none from hnone]
    exact if_pos ⟨hid, hgone⟩
  · refine (hentry id).trans ?_
    rw [show after.rows.find? (fun e => e.1 = id) = some e from hget]
    simp [hholds]
  · cases hget : after.get id with
    | some e => exact hkept id e hget (holds_self (hsame ▸ hget))
    | none =>
      refine (hentry id).trans ?_
      rw [show after.rows.find? (fun e => e.1 = id) = none from hget]
      refine if_neg fun hdeleted => ?_
      rw [← Table.get_isSome, ← hsame, hget] at hdeleted
      exact absurd hdeleted.1 (by simp)
  · exact hmarks

/-! ## A registry file -/

/-- The map a file holds, empty if it is none. -/
def fileRegistry (json : SerdeJson) (text : Option String) : Registry :=
  match text.bind json.fromStr with
  | some (.obj fields) => registryOf fields
  | _ => .empty

/-- The file's route is stamped later than the stored one, or that has no stamp. -/
def FileOutranks (held incoming : Route) : Prop :=
  ∀ heldAt, held.registeredAt = some heldAt → ∃ newAt, incoming.registeredAt = some newAt ∧ heldAt < newAt

theorem outranks_iff {held incoming : Route} : outranks (some held) incoming = true ↔ ¬ FileOutranks held incoming := by
  rw [outranks, FileOutranks]
  cases hheld : held.registeredAt with
  | none => simp
  | some heldAt =>
    cases hnew : incoming.registeredAt with
    | none => simp
    | some newAt =>
      simp only
      rw [decide_eq_true_iff, ← not_lt]
      refine not_congr ⟨fun hlt _ heq => ⟨newAt, rfl, Option.some.inj heq ▸ hlt⟩, fun h => ?_⟩
      obtain ⟨newAt', heq, hlt⟩ := h heldAt rfl
      exact Option.some.inj heq ▸ hlt

/-- Routes that the file does not outrank, or does not have, stay. -/
structure Imported (s : RouteStore) (file : Registry) (s' : RouteStore) : Prop where
  kept   : ∀ id row, s.routes[id]? = some row →
    (∀ e, file.get id = some e → ¬ FileOutranks row.route (routeFromValue e.2)) → s'.entry id = s.entry id
  others : ∀ id, file.get id = none → s'.entry id = s.entry id

theorem importRegistryFile_ok {json : SerdeJson} {hashHex : String → String} {s s' : RouteStore} {path : String}
    {text : Option String} (h : s.importRegistryFile json hashHex path text = .ok s') :
    s.Imported (fileRegistry json text) s' ∧ s'.importRegistryFile json hashHex path text = .ok s' := by
  have hself : ∀ {file}, s.Imported file s := ⟨fun _ _ _ _ => rfl, fun _ _ => rfl⟩
  cases text with
  | none =>
    cases h
    exact ⟨hself, rfl⟩
  | some text =>
    have hsame : s = s' → s.Imported (fileRegistry json (some text)) s' ∧
        s'.importRegistryFile json hashHex path (some text) = .ok s' := by
      rintro rfl
      exact ⟨hself, h⟩
    have hrun := h
    unfold importRegistryFile at hrun
    simp only at hrun
    split at hrun
    · exact hsame (Except.ok.inj hrun)
    · rename_i hblank
      split at hrun
      · exact hsame (Except.ok.inj hrun)
      · split at hrun
        · cases hrun
        · rename_i fields hread
          have hfile : fileRegistry json (some text) = registryOf fields := by
            simp [fileRegistry, hread]
          cases hrun
          have hentry := fun k => entry_foldl (fun e => outranks (s.held e.1) (routeFromValue e.2))
            (registryOf fields).unique s k
          refine ⟨⟨fun id row hrow hkept => (hentry id).trans ?_, fun id hnone => (hentry id).trans ?_⟩, ?_⟩
          · cases hget : (registryOf fields).get id with
            | none => rw [show (registryOf fields).rows.find? (fun e => e.1 = id) = none from hget]
            | some e =>
              have hkey : e.1 = id := Table.key_of_get hget
              rw [show (registryOf fields).rows.find? (fun e => e.1 = id) = some e from hget]
              have hheld : s.held e.1 = some row.route := by rw [hkey, held, hrow]; rfl
              simp only [hheld]
              exact if_pos (outranks_iff.2 (hkept e (hfile ▸ hget)))
          · rw [hfile] at hnone
            rw [show (registryOf fields).rows.find? (fun e => e.1 = id) = none from hnone]
          · unfold importRegistryFile
            simp only
            rw [if_neg hblank, if_pos]
            simp [importMark]
        · exact hsame (Except.ok.inj hrun)

end RouteStore

/-- **The registry (bus.rs:371, 945, 1299, 1331)**: a stored route survives its value; an update fails with its
    mutation or writes what the mutation changed; an import keeps what the file does not outrank and a second one of
    the same file changes nothing. -/
theorem registry_laws :
    (∀ row : RouteRow, routeFromValue (routeToValue row.route) = row.route) ∧
    (∀ (s : RouteStore) (mutate : Registry → Except String Registry),
      (∃ e, mutate s.registry = .error e ∧ s.registryUpdate mutate = .error e) ∨
      ∃ after s', mutate s.registry = .ok after ∧ s.registryUpdate mutate = .ok s' ∧ s.Updated after s') ∧
    ∀ (json : SerdeJson) (hashHex : String → String) (s s' : RouteStore) (path : String) (text : Option String),
      s.importRegistryFile json hashHex path text = .ok s' →
        s.Imported (RouteStore.fileRegistry json text) s' ∧
        s'.importRegistryFile json hashHex path text = .ok s' := by
  refine ⟨routeFromValue_routeToValue, fun s mutate => ?_, fun _ _ _ _ _ _ => RouteStore.importRegistryFile_ok⟩
  cases hmutate : mutate s.registry with
  | error e => exact .inl ⟨e, rfl, by rw [RouteStore.registryUpdate, hmutate]; rfl⟩
  | ok after =>
    obtain ⟨s', hok, hupdated⟩ := RouteStore.registryUpdate_ok hmutate
    exact .inr ⟨after, s', rfl, hok, hupdated⟩

end BoopStore
