import Mathlib

/-!
# Registry routes (`crates/boop-store/src/bus.rs`, `harness_id.rs`, `session.rs`)

| here | there |
| --- | --- |
| `HarnessId`, `HarnessId.asStr` | harness_id.rs:18, 37 |
| `RouteKind`, `RouteKind.asStr` | bus.rs:78, 238 |
| `Route` | the stored fields of `SpawnSpec` (session.rs:198), which `Route` is a name for (bus.rs:38) |
-/

namespace BoopStore

inductive HarnessId where
  | claude | codex | kimi | omp | opencode
deriving DecidableEq, Repr

def HarnessId.asStr : HarnessId → String
  | claude => "claude"
  | codex => "codex"
  | kimi => "kimi"
  | omp => "omp"
  | opencode => "opencode"

inductive RouteKind where
  | lane | coordinator | native | shell
  | other (value : String)
deriving DecidableEq, Repr

def RouteKind.asStr : RouteKind → String
  | lane => "lane"
  | coordinator => "coordinator"
  | native => "native"
  | shell => "shell"
  | other value => value

structure Route where
  kind            : RouteKind
  harness         : Option HarnessId
  tmux            : Option String
  cwd             : Option String
  model           : Option String
  mode            : Option String
  sessionId       : Option String
  sourcePath      : Option String
  parent          : Option String
  goal            : Option String
  registeredAt    : Option String
  baseSha         : Option String
  worktreeDir     : Option String
  appServerSocket : Option String
deriving DecidableEq, Repr

/-- `Route::default()` -/
def Route.default : Route :=
  { kind := .lane, harness := none, tmux := none, cwd := none, model := none, mode := none, sessionId := none,
    sourcePath := none, parent := none, goal := none, registeredAt := none, baseSha := none, worktreeDir := none,
    appServerSocket := none }

end BoopStore
