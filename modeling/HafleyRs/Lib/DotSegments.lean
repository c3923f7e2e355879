import HafleyRs.Lib.Slashed

/-!
# Paths with dot segments

A path is walked from a list of names: a step stays, goes up or goes down into a name. `walk` stays at the root where
a step leads above it, `climb` fails there, and they agree elsewhere (`walk_of_climb`). What the steps up cannot reach
stays in front (`walk_keeps`), so `relative`, which goes up to the common front of two paths and down from there,
leads from one to the other (`walk_relative`) with the fewest steps up (`ups_relative_le`).

`read` cuts a text at its slashes into steps, `joined` writes names with slashes between them.
-/

namespace DotSegments
variable {α : Type*}

inductive Step (α : Type*)
  | stay
  | up
  | down (name : α)

def step : List α → Step α → List α
  | path, .stay      => path
  | path, .up        => path.dropLast
  | path, .down name => path ++ [name]

def walk (path : List α) (steps : List (Step α)) : List α := steps.foldl step path

@[simp] theorem walk_nil (path : List α) : walk path [] = path := rfl

@[simp] theorem walk_cons (path : List α) (s : Step α) (steps : List (Step α)) :
    walk path (s :: steps) = walk (step path s) steps := rfl

theorem walk_append (path : List α) (steps more : List (Step α)) :
    walk path (steps ++ more) = walk (walk path steps) more := List.foldl_append

/-! ## Above the root -/

def climbStep : List α → Step α → Option (List α)
  | [], .up => none
  | path, s => some (step path s)

def climb (path : List α) (steps : List (Step α)) : Option (List α) := steps.foldlM climbStep path

theorem climbStep_eq_some {path next : List α} {s : Step α} (h : climbStep path s = some next) :
    next = step path s := by
  unfold climbStep at h
  split at h
  · cases h
  · exact (Option.some.inj h).symm

theorem walk_of_climb {path last : List α} {steps : List (Step α)} (h : climb path steps = some last) :
    walk path steps = last := by
  induction steps generalizing path with
  | nil => exact Option.some.inj h
  | cons s steps ih =>
    rw [climb, List.foldlM_cons] at h
    obtain ⟨next, hnext, hrest⟩ := Option.bind_eq_some_iff.1 h
    rw [walk_cons, ← climbStep_eq_some hnext]
    exact ih hrest

/-! ## Steps up -/

def Step.isUp : Step α → Bool
  | .up => true
  | _   => false

def ups (steps : List (Step α)) : Nat := steps.countP Step.isUp

@[simp] theorem ups_stay (steps : List (Step α)) : ups (.stay :: steps) = ups steps :=
  List.countP_cons_of_neg Bool.false_ne_true

@[simp] theorem ups_down (name : α) (steps : List (Step α)) : ups (.down name :: steps) = ups steps :=
  List.countP_cons_of_neg Bool.false_ne_true

@[simp] theorem ups_up (steps : List (Step α)) : ups (.up :: steps) = ups steps + 1 :=
  List.countP_cons_of_pos rfl

/-- **What the steps up cannot reach** stays in front. -/
theorem walk_keeps {front path : List α} (steps : List (Step α)) (hfront : front <+: path)
    (hlen : front.length + ups steps ≤ path.length) : front <+: walk path steps := by
  induction steps generalizing path with
  | nil => exact hfront
  | cons s steps ih =>
    rw [walk_cons]
    cases s with
    | stay => exact ih hfront hlen
    | down name =>
      refine ih (hfront.trans (List.prefix_append _ _)) ?_
      rw [ups_down] at hlen
      rw [step, List.length_append]
      omega
    | up =>
      have hshort : front.length + ups steps ≤ path.dropLast.length := by
        rw [ups_up] at hlen
        rw [List.length_dropLast]
        omega
      refine ih (List.prefix_of_prefix_length_le hfront (List.dropLast_prefix _) ?_) hshort
      exact (Nat.le_add_right _ _).trans hshort

theorem walk_ups (path : List α) (n : Nat) :
    walk path (List.replicate n .up) = path.take (path.length - n) := by
  induction n generalizing path with
  | zero => simp
  | succ n ih =>
    rw [List.replicate_succ, walk_cons, ih, step, List.dropLast_eq_take, List.take_take, List.length_take]
    congr 1
    omega

theorem walk_downs (path names : List α) : walk path (names.map .down) = path ++ names := by
  induction names generalizing path with
  | nil => simp
  | cons name names ih => rw [List.map_cons, walk_cons, ih, step, List.append_assoc, List.singleton_append]

/-! ## From one path to another -/

section
variable [DecidableEq α]

/-- The length of the common front. -/
def shared : List α → List α → Nat
  | a :: path, b :: target => if a = b then shared path target + 1 else 0
  | _, _ => 0

theorem take_shared (path target : List α) : path.take (shared path target) = target.take (shared path target) := by
  induction path generalizing target with
  | nil => simp [shared]
  | cons a path ih =>
    cases target with
    | nil => simp [shared]
    | cons b target =>
      rw [shared]
      split
      · rename_i h
        rw [List.take_succ_cons, List.take_succ_cons, h, ih]
      · rfl

theorem shared_le (path target : List α) : shared path target ≤ path.length := by
  induction path generalizing target with
  | nil => simp [shared]
  | cons a path ih =>
    cases target with
    | nil => simp [shared]
    | cons b target =>
      have := ih target
      rw [shared, List.length_cons]
      split <;> omega

theorem length_le_shared {front path target : List α} (hpath : front <+: path) (htarget : front <+: target) :
    front.length ≤ shared path target := by
  induction front generalizing path target with
  | nil => exact Nat.zero_le _
  | cons a front ih =>
    obtain ⟨path', rfl⟩ := hpath
    obtain ⟨target', rfl⟩ := htarget
    have := ih (List.prefix_append front path') (List.prefix_append front target')
    simp only [List.cons_append, shared, if_true, List.length_cons]
    omega

def relative (path target : List α) : List (Step α) :=
  List.replicate (path.length - shared path target) .up ++ (target.drop (shared path target)).map .down

theorem walk_relative (path target : List α) : walk path (relative path target) = target := by
  have hlen : path.length - (path.length - shared path target) = shared path target := by
    have := shared_le path target
    omega
  rw [relative, walk_append, walk_ups, walk_downs, hlen, take_shared, List.take_append_drop]

theorem ups_relative (path target : List α) : ups (relative path target) = path.length - shared path target := by
  rw [relative, ups, List.countP_append, List.countP_replicate, List.countP_map]
  simp [Step.isUp, Function.comp_def]

/-- **No other way leads up less.** -/
theorem ups_relative_le {path target : List α} {steps : List (Step α)} (h : walk path steps = target) :
    ups (relative path target) ≤ ups steps := by
  rw [ups_relative]
  by_contra hlt
  have hkept : path.take (path.length - ups steps) <+: target := by
    refine h ▸ walk_keeps steps (List.take_prefix _ _) ?_
    rw [List.length_take]
    omega
  have hle := length_le_shared (List.take_prefix _ path) hkept
  rw [List.length_take] at hle
  omega

end

/-! ## Written with slashes -/

/-- A name, `.`, `..`, or nothing between two slashes. -/
def stepOf (part : List Char) : Step (List Char) :=
  if part = [] ∨ part = ['.'] then .stay
  else if part = ['.', '.'] then .up
  else .down part

def read (path : List Char) : List (Step (List Char)) := (path.splitOn '/').map stepOf

def joined (parts : List (List Char)) : List Char := ['/'].intercalate parts

theorem joined_concat {path : List (List Char)} (h : path ≠ []) (name : List Char) :
    joined (path ++ [name]) = joined path ++ '/' :: name := by
  induction path with
  | nil => exact absurd rfl h
  | cons part path ih =>
    rcases eq_or_ne path [] with rfl | hne
    · simp [joined]
    · have hjoined := ih hne
      rw [joined, joined] at hjoined
      rw [joined, joined, List.cons_append, List.intercalate_cons_of_ne_nil (by simp),
        List.intercalate_cons_of_ne_nil hne, hjoined]
      simp

/-- Something between slashes. -/
def Plain (part : List Char) : Prop := part ≠ [] ∧ '/' ∉ part

theorem isUp_stepOf (part : List Char) : (stepOf part).isUp = (part == ['.', '.']) := by
  unfold stepOf
  split
  · rename_i h
    rcases h with rfl | rfl <;> rfl
  · split
    · rename_i h
      rw [h]
      rfl
    · rename_i h
      rw [beq_eq_false_iff_ne.2 h]
      rfl

theorem ups_read (path : List Char) : ups (read path) = (path.splitOn '/').count ['.', '.'] := by
  rw [read, ups, List.countP_map, List.count]
  exact List.countP_congr fun part _ => by rw [Function.comp, isUp_stepOf]

theorem read_append (path rest : List Char) : read (path ++ '/' :: rest) = read path ++ read rest := by
  rw [read, List.splitOn_append_cons_self, List.map_append]
  rfl

theorem read_joined {parts : List (List Char)} (hne : parts ≠ []) (hslash : ∀ part ∈ parts, '/' ∉ part) :
    read (joined parts) = parts.map stepOf := by
  rw [read, joined, List.splitOn_intercalate '/' hslash hne]

theorem filter_splitOn_joined {parts : List (List Char)} (h : ∀ part ∈ parts, Plain part) :
    ((joined parts).splitOn '/').filter (· ≠ []) = parts := by
  rcases eq_or_ne parts [] with rfl | hne
  · rfl
  · rw [joined, List.splitOn_intercalate '/' (fun part hpart => (h part hpart).2) hne]
    exact List.filter_eq_self.2 fun part hpart => decide_eq_true (h part hpart).1

theorem plain_step {path : List (List Char)} {part : List Char} (h : ∀ p ∈ path, Plain p) (hslash : '/' ∉ part) :
    ∀ p ∈ step path (stepOf part), Plain p := by
  unfold stepOf
  split
  · exact h
  · rename_i hne
    split
    · exact fun p hp => h p (List.mem_of_mem_dropLast hp)
    · intro p hp
      rcases List.mem_append.1 hp with hp | hp
      · exact h p hp
      · obtain rfl := List.mem_singleton.1 hp
        exact ⟨fun hnil => hne (.inl hnil), hslash⟩

theorem plain_walk {path : List (List Char)} (h : ∀ p ∈ path, Plain p) (text : List Char) :
    ∀ p ∈ walk path (read text), Plain p := by
  have hslash : ∀ part ∈ text.splitOn '/', '/' ∉ part := fun part hpart => Slashed.not_mem_of_mem_splitOn hpart
  unfold read
  generalize text.splitOn '/' = parts at hslash
  induction parts generalizing path with
  | nil => exact h
  | cons part parts ih =>
    obtain ⟨hpart, hparts⟩ := List.forall_mem_cons.1 hslash
    exact ih (plain_step h hpart) hparts

end DotSegments
