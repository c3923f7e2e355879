import HafleyRs.Lib.DotSegments
import HafleyRs.SprefaExtract.Move

/-!
# Relative paths (`crates/sprefa-extract/src/edit/_1_move_cx.rs:319-364`)

| here | there |
| --- | --- |
| `relativeBetween` | `relative_between`: up to the shared front, down to the target |
| `joinRel` | `join_rel`: the fold over the parts is `walk`, a part is read by `stepOf`, `push` and `pop` are `step` |

Every rewritten import goes through both. `Segment` is an ordinary name of a directory or a file; `path` is the path
of some names, `""` for the root.
-/

namespace SprefaExtract
open DotSegments

/-- `split('/').filter(|part| !part.is_empty())` -/
def partsOf (rel : Rel) : List Rel := (rel.splitOn '/').filter (· ≠ [])

def dotDot : Rel := ['.', '.']

def relativeBetween (fromDir target : Rel) : Rel :=
  let fromParts := partsOf fromDir
  let toParts := partsOf target
  let common := shared fromParts toParts
  joined (List.replicate (fromParts.length - common) dotDot ++ toParts.drop common)

def joinRel (dir rel : Rel) : Rel := joined (walk (partsOf dir) (read rel))

/-! ## Names -/

structure Segment where
  text      : Rel
  ne_nil    : text ≠ []
  ne_dot    : text ≠ ['.']
  ne_dotDot : text ≠ dotDot
  not_slash : '/' ∉ text

def path (segments : List Segment) : Rel := joined (segments.map Segment.text)

/-- How often a path goes up. -/
def dotDots (rel : Rel) : Nat := (rel.splitOn '/').count dotDot

theorem stepOf_segment (s : Segment) : stepOf s.text = .down s.text := by
  have hup : s.text ≠ ['.', '.'] := s.ne_dotDot
  rw [stepOf, if_neg (not_or.2 ⟨s.ne_nil, s.ne_dot⟩), if_neg hup]

theorem stepOf_dotDot : stepOf dotDot = .up := rfl

theorem dotDots_eq (rel : Rel) : dotDots rel = ups (read rel) := (ups_read rel).symm

theorem plain_partsOf {rel part : Rel} (h : part ∈ partsOf rel) : Plain part := by
  obtain ⟨hmem, hne⟩ := List.mem_filter.1 h
  exact ⟨of_decide_eq_true hne, Slashed.not_mem_of_mem_splitOn hmem⟩

theorem partsOf_path (segments : List Segment) : partsOf (path segments) = segments.map Segment.text := by
  refine filter_splitOn_joined fun part hpart => ?_
  obtain ⟨s, -, rfl⟩ := List.mem_map.1 hpart
  exact ⟨s.ne_nil, s.not_slash⟩

/-! ## The round trip -/

section
variable (fromDir target : List Segment)

theorem names_relativeBetween :
    (List.replicate (fromDir.length - shared (fromDir.map Segment.text) (target.map Segment.text)) dotDot ++
      (target.map Segment.text).drop (shared (fromDir.map Segment.text) (target.map Segment.text))).map stepOf =
      relative (fromDir.map Segment.text) (target.map Segment.text) := by
  rw [List.map_append, List.map_replicate, stepOf_dotDot, relative, List.length_map, ← List.map_drop, List.map_map,
    List.map_map]
  congr 1
  exact List.map_congr_left fun s _ => stepOf_segment s

/-- The steps of the relative path; of the empty one, a step that stays. -/
theorem steps_relativeBetween :
    let names := relative (fromDir.map Segment.text) (target.map Segment.text)
    let steps := read (relativeBetween (path fromDir) (path target))
    steps = names ∨ names = [] ∧ steps = [.stay] := by
  have hnames := names_relativeBetween fromDir target
  rw [relativeBetween, partsOf_path, partsOf_path, List.length_map]
  generalize hparts : List.replicate _ dotDot ++ _ = parts at hnames ⊢
  rcases eq_or_ne parts [] with rfl | hne
  · exact .inr ⟨hnames.symm, rfl⟩
  · refine .inl ?_
    rw [read_joined hne ?_, hnames]
    intro s hs
    rcases List.mem_append.1 (hparts ▸ hs) with hs | hs
    · rw [List.eq_of_mem_replicate hs]
      decide
    · obtain ⟨t, -, rfl⟩ := List.mem_map.1 (List.mem_of_mem_drop hs)
      exact t.not_slash

/-- A path that leads to the target walks to its names. -/
theorem walk_of_joinRel {rel : Rel} (h : joinRel (path fromDir) rel = path target) :
    walk (fromDir.map Segment.text) (read rel) = target.map Segment.text := by
  have hplain := @plain_walk (partsOf (path fromDir)) (fun _ => plain_partsOf) rel
  have hparts := congrArg partsOf h
  rw [joinRel, partsOf, filter_splitOn_joined hplain, partsOf_path, partsOf_path] at hparts
  exact hparts

/-- **The relative path leads from the directory to the target**, and no other goes up less. -/
theorem relativeBetween_leads :
    joinRel (path fromDir) (relativeBetween (path fromDir) (path target)) = path target ∧
      ∀ rel : Rel, joinRel (path fromDir) rel = path target →
        dotDots (relativeBetween (path fromDir) (path target)) ≤ dotDots rel := by
  have hsteps := steps_relativeBetween fromDir target
  constructor
  · have hwalk : walk (fromDir.map Segment.text) (read (relativeBetween (path fromDir) (path target))) =
        target.map Segment.text := by
      rw [← walk_relative (fromDir.map Segment.text) (target.map Segment.text)]
      rcases hsteps with h | ⟨hnil, h⟩
      · rw [h, walk_relative]
      · rw [h, hnil]
        rfl
    rw [joinRel, partsOf_path, hwalk]
    rfl
  · intro rel hrel
    rw [dotDots_eq, dotDots_eq]
    refine le_trans (le_of_eq ?_) (ups_relative_le (walk_of_joinRel fromDir target hrel))
    rcases hsteps with h | ⟨hnil, h⟩
    · rw [h]
    · rw [h, hnil]
      rfl

end
end SprefaExtract
