import HafleyRs.Lib.BTree
import HafleyRs.BoopTurnvis.Lines

/-!
# Turns on the screen (`crates/boop-turnvis/src/lib.rs`)

| here | there |
| --- | --- |
| `tableOf`, `backtrack`, `wrap` | the parts of `monotonicTurnMatch`, `monotonic_turn_match` (188) |
| `matchRowOwners`, `hasDiscriminatingHit` | 319, 336 |
| `extendTo` | `extend_to` (377); `reach` is its loop over the rows on the one side |
| `growAnchors` | `grow_anchors` (414); `growDown`, `growUp` are its loops |
| `placed`, `extendAll` | `locate_visible_turns_with_policy` (483), before and in its last loop |
-/

namespace BoopTurnvis

inductive Confidence where
  | anchored | extended
deriving DecidableEq, Repr

structure VisibleTurn where
  session     : Text
  harness     : Text
  turn        : Int
  ts          : Int
  role        : Text
  said        : Text
  id          : Text
  bufferStart : Nat
  bufferEnd   : Nat
  anchorStart : Nat
  anchorEnd   : Nat
  confidence  : Confidence
deriving DecidableEq, Repr

structure MatchEvidence where
  matchedRows     : Nat
  hasPromptMarker : Bool
deriving DecidableEq, Repr

structure Hit where
  line        : LogicalLine
  sourceIndex : Nat
deriving DecidableEq, Repr

structure TurnMatch where
  source     : Source
  hits       : List Hit
  sourceSpan : Nat
deriving DecidableEq, Repr

/-- The rows with something on them. -/
def written (screen : List ScreenRow) : List ScreenRow := screen.filter fun row => !row.normalized.isEmpty

/-! ## One turn's rows -/

/-- `u32::saturating_add` -/
def saturatingAdd (a b : Nat) : Nat := min (a + b) (2 ^ 32 - 1)

/-- The score of a pair of matching lines after `score`. -/
def matchScore (score : Nat) (screenNorm sourceNorm : Text) : Nat :=
  saturatingAdd (saturatingAdd score 1000) (min screenNorm.length sourceNorm.length % 2 ^ 32)

/-- `scores[row]` from `scores[row - 1]`, from left to right. -/
def nextScores (normalized : List Text) (above : List Nat) (screenNorm : Text) : List Nat :=
  ((normalized.zip (above.zip above.tail)).foldl (fun (s : List Nat × Nat) x =>
    let here := if lineMatches screenNorm x.1 then matchScore x.2.1 screenNorm x.1 else 0
    let score := max (max here x.2.2) s.2
    (s.1 ++ [score], score)) ([0], 0)).1

def tableOf (rows : List ScreenRow) (normalized : List Text) : List (List Nat) :=
  rows.scanl (fun above row => nextScores normalized above row.normalized) (List.replicate (normalized.length + 1) 0)

def scoreAt (scores : List (List Nat)) (row column : Nat) : Nat := (scores[row]?.getD [])[column]?.getD 0

/-- The walk back from the corner; `fuel` is `row + column`. -/
def backtrack (rows : List ScreenRow) (normalized : List Text) (scores : List (List Nat)) :
    Nat → Nat → Nat → List Hit → List Hit
  | 0, _, _, hits => hits
  | fuel + 1, row, column, hits =>
    match rows[row - 1]?, normalized[column - 1]? with
    | some at', some sourceNorm =>
      if row = 0 || column = 0 then hits
      else if lineMatches at'.normalized sourceNorm &&
          scoreAt scores row column = matchScore (scoreAt scores (row - 1) (column - 1)) at'.normalized sourceNorm then
        backtrack rows normalized scores fuel (row - 1) (column - 1) (⟨at'.line, column - 1⟩ :: hits)
      else if scoreAt scores row (column - 1) ≤ scoreAt scores (row - 1) column then
        backtrack rows normalized scores fuel (row - 1) column hits
      else backtrack rows normalized scores fuel row (column - 1) hits
    | _, _ => hits

/-- The rows after `at'` that continue `sourceNorm`. -/
def wrap (sourceNorm : Text) (nextHitStart : Option Nat) : ScreenRow → List ScreenRow → List LogicalLine
  | _, [] => []
  | at', row :: rows =>
    if some row.line.start = nextHitStart || row.line.start ≠ at'.line.end' + 1 ||
        !contains sourceNorm row.normalized then []
    else row.line :: wrap sourceNorm nextHitStart row rows

/-- Each hit with its continuation rows. -/
def wrapped (rows : List ScreenRow) (normalized : List Text) : List Hit → List Hit
  | [] => []
  | hit :: hits =>
    let more :=
      match rows.dropWhile fun row => row.line.start ≠ hit.line.start with
      | [] => []
      | at' :: rest =>
        wrap (normalized[hit.sourceIndex]?.getD []) (hits.head?.map fun next : Hit => next.line.start) at' rest
    hit :: more.map (⟨·, hit.sourceIndex⟩) ++ wrapped rows normalized hits

def monotonicTurnMatch (screen : List ScreenRow) (source : Source) : Option TurnMatch :=
  let rows := written screen
  let scores := tableOf rows source.normalized
  if scoreAt scores rows.length source.normalized.length = 0 then none
  else
    let hits := backtrack rows source.normalized scores (rows.length + source.normalized.length) rows.length
      source.normalized.length []
    match wrapped rows source.normalized hits with
    | [] => none
    | first :: hits =>
      let last := (first :: hits).getLast (by simp)
      some ⟨source, first :: hits, last.sourceIndex - first.sourceIndex + 1⟩

/-! ## All turns -/

/-- How many turns of this role have a hit at this row. -/
def matchRowOwners (matches' : List TurnMatch) (start : Nat) (role : Text) : Nat :=
  ((matches'.filter fun m => m.source.turn.role = role && m.hits.any fun hit => hit.line.start = start).map
    (·.source.id)).dedup.length

/-- `hit.line.text.trim_start().starts_with('❯')` -/
def promptMarker (line : LogicalLine) : Bool := (line.text.dropWhile isWhitespace).head? = some '❯'

def hasDiscriminatingHit (hits : List Hit) (screen : List ScreenRow) (source : Source)
    (owners : Nat → Text → Nat) : Bool :=
  hits.any fun hit => (screen.find? fun row => row.line.start = hit.line.start).any fun row =>
    let unambiguous := owners hit.line.start source.turn.role = 1
    if source.turn.role = "tool".toList then unambiguous && 8 ≤ row.normalized.length
    else unambiguous || (source.turn.role = "user".toList && promptMarker row.line)

def TurnMatch.evidence (m : TurnMatch) : MatchEvidence := ⟨m.hits.length, m.hits.any fun hit => promptMarker hit.line⟩

def TurnMatch.markedUserPrompt (m : TurnMatch) : Bool :=
  m.source.turn.role = "user".toList && m.hits.any fun hit => promptMarker hit.line

/-- The comparison of `matches.sort_by`. -/
def TurnMatch.before (left right : TurnMatch) : Prop :=
  toLex (!left.markedUserPrompt, toLex (OrderDual.toDual left.hits.length, toLex (left.sourceSpan,
      toLex (left.source.normalized.length, OrderDual.toDual left.source.turn.ts)))) ≤
    toLex (!right.markedUserPrompt, toLex (OrderDual.toDual right.hits.length, toLex (right.sourceSpan,
      toLex (right.source.normalized.length, OrderDual.toDual right.source.turn.ts))))

instance : DecidableRel TurnMatch.before := fun _ _ => inferInstanceAs (Decidable (_ ≤ _))

def matchesOf (ext : Ext) (screen : List ScreenRow) (sources : List Source)
    (accept : BoopTurn → MatchEvidence → Bool) : List TurnMatch :=
  ((((sources.zip (candidates ext screen sources)).filter (·.2)).filterMap fun x =>
    monotonicTurnMatch screen x.1).filter fun m => accept m.source.turn m.evidence).insertionSort TurnMatch.before

/-- One match of the claiming loop: the claimed rows and the turns placed so far. -/
def claim (screen : List ScreenRow) (owners : Nat → Text → Nat) (s : List Nat × List VisibleTurn) (m : TurnMatch) :
    List Nat × List VisibleTurn :=
  let unclaimed := m.hits.filter fun hit => !s.1.contains hit.line.start
  if unclaimed.length * 2 < m.hits.length then s
  else if m.source.turn.role = "tool".toList && !hasDiscriminatingHit unclaimed screen m.source owners then s
  else
    match (unclaimed.map (·.line.start)).min?, (unclaimed.map (·.line.end')).max? with
    | some anchorStart, some anchorEnd =>
      if s.2.any fun turn => anchorStart ≤ turn.anchorEnd && turn.anchorStart ≤ anchorEnd then s
      else (s.1 ++ unclaimed.map (·.line.start), s.2 ++ [
        { session := m.source.turn.session
          harness := m.source.turn.harness
          turn := m.source.turn.turn
          ts := m.source.turn.ts
          role := m.source.turn.role
          said := m.source.turn.said
          id := m.source.id
          bufferStart := anchorStart
          bufferEnd := anchorEnd
          anchorStart
          anchorEnd
          confidence := .anchored }])
    | _, _ => s

/-! ## Growing the anchors -/

abbrev Owners := BTreeMap Nat Text

/-- `while low > 0 && claims(rows[low - 1])` -/
def growDown (claims : Nat → Bool) : Nat → Nat
  | 0 => 0
  | low + 1 => if claims low then growDown claims low else low + 1

/-- `while high + 1 < rows.len() && claims(rows[high + 1])`, with the number of rows above. -/
def growUp (claims : Nat → Bool) : Nat → Nat → Nat
  | 0, high => high
  | above + 1, high => if claims (high + 1) then growUp claims above (high + 1) else high

def ownRows (ownerAt : Owners) (rows : List ScreenRow) (id : Text) : Owners :=
  rows.foldl (fun m row => m.insert row.line.start id) ownerAt

def initialOwners (visible : List VisibleTurn) (rows : List ScreenRow) : Owners :=
  visible.foldl (fun m turn => ownRows m
    (rows.filter fun row => turn.anchorStart ≤ row.line.start && row.line.end' ≤ turn.anchorEnd) turn.id) ∅

def claims (rows : List ScreenRow) (ownerAt : Owners) (id : Text) (source : Source) (i : Nat) : Bool :=
  rows[i]?.any fun row => ownerAt[row.line.start]?.getD id = id &&
    source.normalized.any fun line => lineMatches row.normalized line

def growTurn (rows : List ScreenRow) (sources : List Source) (ownerAt : Owners) (turn : VisibleTurn) :
    VisibleTurn × Owners :=
  match sources.find? fun candidate => candidate.id = turn.id with
  | none => (turn, ownerAt)
  | some source =>
    match rows.findIdx? fun row => turn.anchorStart ≤ row.line.start with
    | none => (turn, ownerAt)
    | some first =>
      let low := growDown (claims rows ownerAt turn.id source) first
      let high := (rows.findIdx? fun row => turn.anchorEnd ≤ row.line.end').getD (rows.length - 1)
      let high := growUp (claims rows ownerAt turn.id source) (rows.length - 1 - high) high
      let anchorStart := min turn.anchorStart ((rows[low]?.map (·.line.start)).getD turn.anchorStart)
      let anchorEnd := max turn.anchorEnd ((rows[high]?.map (·.line.end')).getD turn.anchorEnd)
      ({ turn with anchorStart, anchorEnd, bufferStart := anchorStart, bufferEnd := anchorEnd },
        ownRows ownerAt ((rows.take (high + 1)).drop low) turn.id)

def growAll (rows : List ScreenRow) (sources : List Source) : Owners → List VisibleTurn → List VisibleTurn
  | _, [] => []
  | ownerAt, turn :: visible =>
    (growTurn rows sources ownerAt turn).1 :: growAll rows sources (growTurn rows sources ownerAt turn).2 visible

def growAnchors (visible : List VisibleTurn) (screen : List ScreenRow) (sources : List Source) : List VisibleTurn :=
  growAll (written screen) sources (initialOwners visible (written screen)) visible

/-! ## Extending the buffers -/

inductive Step where
  | up | down
deriving DecidableEq, Repr

def reach (step : Step) (limit : Nat) : Nat → List ScreenRow → Nat
  | reached, [] => reached
  | reached, row :: rows =>
    let edge := if step = .down then row.line.end' else row.line.start
    let inside := if step = .down then edge ≤ limit else limit ≤ edge
    if !decide inside || row.stops then reached else reach step limit edge rows

/-- `visible.sort_by` -/
def VisibleTurn.before (a b : VisibleTurn) : Prop := toLex (a.bufferStart, a.turn) ≤ toLex (b.bufferStart, b.turn)

instance : DecidableRel VisibleTurn.before := fun _ _ => inferInstanceAs (Decidable (_ ≤ _))

/-- The turns with their grown anchors in order, before the last loop. -/
def placed (ext : Ext) (lines : List LogicalLine) (turns : List BoopTurn)
    (summaryAnchor : Option (List LogicalLine → List BoopTurn → List VisibleTurn → List VisibleTurn))
    (accept : BoopTurn → MatchEvidence → Bool) : List VisibleTurn :=
  let screen := toScreen ext lines
  let sources := toSources ext turns
  let matches' := matchesOf ext screen sources accept
  let visible := (matches'.foldl (claim screen (matchRowOwners matches')) ([], [])).2
  let visible := growAnchors visible screen sources
  let visible := summaryAnchor.elim visible fun summaryAnchor => summaryAnchor lines turns visible
  visible.insertionSort VisibleTurn.before

end BoopTurnvis
