import HafleyRs.Lib.BTree
import HafleyRs.Lib.Loop
import HafleyRs.Lib.Pruning

/-!
# The moves a stratification proposes (`crates/sprefa-extract/src/0_stratify.rs`:604)

| here | there |
| --- | --- |
| `Disk` | `std::fs::symlink_metadata(_).is_ok()` and `root.join` |
| `unshared` | the `retain` on the count of a destination (609–613) |
| `taken`, `blocked` | the test and the list of the loop (618–627) |
| `retainNoncollidingMoves` | `retain_noncolliding_moves` |

A path is its string, as it is there. What is left of the proposals is the greatest set of them in which every
destination is free or is left by another move, or by the same one (`retain_greatest`): a file may be moved onto itself.
-/

namespace SprefaExtract
open Loop Pruning

abbrev Moves := BTreeMap String String

structure Disk where
  symlinkMetadata : String → Bool
  join            : String → String

/-- How many proposals have a destination. -/
def destinations (moves : Moves) : BTreeMap String Nat :=
  BTreeMap.group Prod.snd 0 (fun n _ => n + 1) ∅ moves.toList

def unshared (moves : Moves) : Moves := moves.filter fun _ destination => (destinations moves)[destination]? = some 1

section
variable (disk : Disk) (files : List String)

def taken (destination : String) : Bool :=
  files.contains destination || disk.symlinkMetadata destination || disk.symlinkMetadata (disk.join destination)

def blocked (moves : Moves) : List String :=
  (moves.toList.filter fun m => !moves.contains m.2 && taken disk files m.2).map Prod.fst

def retainStep (moves : Moves) : Except Unit (Turn Moves Moves) :=
  let rejected := blocked disk files moves
  .ok (if rejected.isEmpty then .done moves else .next (rejected.foldl (fun m path => m.erase path) moves))

def retainNoncollidingMoves (fuel : Nat) (moves : Moves) : Except Unit Moves :=
  loop () (retainStep disk files) fuel (unshared moves)

end

/-! ## Proposals as a set -/

/-- The moves of a map. -/
def pairs (moves : Moves) : Set (String × String) := {m | moves[m.1]? = some m.2}

theorem mem_pairs {moves : Moves} {m : String × String} : m ∈ pairs moves ↔ moves[m.1]? = some m.2 := Iff.rfl

theorem contains_iff_pairs {moves : Moves} {path : String} :
    moves.contains path = true ↔ ∃ d, (path, d) ∈ pairs moves := by
  rw [Std.ExtTreeMap.contains_eq_isSome_getElem?, Option.isSome_iff_exists]
  rfl

/-- A move has its destination for itself. -/
def Unshared (s : Set (String × String)) (m : String × String) : Prop := ∀ m' ∈ s, m'.2 = m.2 → m' = m

theorem destinations_eq_one {moves : Moves} {m : String × String} (hm : m ∈ pairs moves) :
    (destinations moves)[m.2]? = some 1 ↔ Unshared (pairs moves) m := by
  have hmem : m ∈ moves.toList.filter (fun e => e.2 = m.2) := by
    rw [List.mem_filter, decide_eq_true_eq]
    exact ⟨BTreeMap.mem_toList.2 hm, rfl⟩
  have hnodup : (moves.toList.filter fun e => e.2 = m.2).Nodup := (BTreeMap.toList_nodup_keys moves).filter _
  have hcount : ∀ es : List (String × String), es.foldl (fun n _ => n + 1) 0 = es.length := fun es => by
    simp
  rw [destinations, BTreeMap.getElem?_group, if_neg (List.ne_nil_of_mem hmem), hcount, Option.some.injEq]
  constructor
  · intro hone m' hm' hdest
    have hmem' : m' ∈ moves.toList.filter (fun e => e.2 = m.2) := by
      rw [List.mem_filter, decide_eq_true_eq]
      exact ⟨BTreeMap.mem_toList.2 hm', hdest⟩
    obtain ⟨e, he⟩ := List.length_eq_one_iff.1 hone
    rw [he, List.mem_singleton] at hmem hmem'
    rw [hmem, hmem']
  · intro hunshared
    refine le_antisymm ?_ (List.length_pos_of_mem hmem)
    by_contra hmany
    obtain ⟨a, ha, b, hb, hne⟩ := (one_lt_length_iff hnodup).1 (not_le.1 hmany)
    rw [List.mem_filter, decide_eq_true_eq] at ha hb
    refine hne ((hunshared a (BTreeMap.mem_toList.1 ha.1) ha.2).trans ?_)
    exact (hunshared b (BTreeMap.mem_toList.1 hb.1) hb.2).symm

theorem pairs_unshared (moves : Moves) : pairs (unshared moves) = {m ∈ pairs moves | Unshared (pairs moves) m} := by
  ext m
  rw [mem_pairs, unshared, Std.ExtTreeMap.getElem?_filter', Option.filter_eq_some_iff]
  constructor
  · intro ⟨hm, hone⟩
    exact ⟨hm, (destinations_eq_one hm).1 (of_decide_eq_true hone)⟩
  · intro ⟨hm, hunshared⟩
    exact ⟨hm, decide_eq_true ((destinations_eq_one hm).2 hunshared)⟩

/-! ## The loop -/

section
variable {disk : Disk} {files : List String}

/-- The destination is free, or left by one of the moves. -/
def Lands (disk : Disk) (files : List String) (s : Set (String × String)) (m : String × String) : Prop :=
  taken disk files m.2 = false ∨ ∃ d, (m.2, d) ∈ s

theorem lands_mono (s t : Set (String × String)) (m : String × String) (h : s ⊆ t) (hm : Lands disk files s m) :
    Lands disk files t m := hm.imp_right fun ⟨d, hd⟩ => ⟨d, h hd⟩

theorem mem_blocked {moves : Moves} {path : String} :
    path ∈ blocked disk files moves ↔ ∃ d, (path, d) ∈ pairs moves ∧ ¬ Lands disk files (pairs moves) (path, d) := by
  have hlands : ∀ d, (!moves.contains d && taken disk files d) = true ↔
      ¬ Lands disk files (pairs moves) (path, d) := by
    intro d
    rw [Lands, not_or, ← contains_iff_pairs, Bool.and_eq_true, Bool.not_eq_true', Bool.not_eq_true, Bool.not_eq_false,
      and_comm]
  rw [blocked, List.mem_map]
  constructor
  · rintro ⟨⟨path, d⟩, hmem, rfl⟩
    rw [List.mem_filter, hlands] at hmem
    exact ⟨d, BTreeMap.mem_toList.1 hmem.1, hmem.2⟩
  · rintro ⟨d, hd, hnot⟩
    refine ⟨(path, d), ?_, rfl⟩
    rw [List.mem_filter, hlands]
    exact ⟨BTreeMap.mem_toList.2 hd, hnot⟩

/-- A turn of the loop prunes the moves. -/
theorem pairs_erase (moves : Moves) : pairs ((blocked disk files moves).foldl (fun m path => m.erase path) moves) =
    prune (Lands disk files) (pairs moves) := by
  ext ⟨path, d⟩
  rw [mem_pairs, BTreeMap.getElem?_foldl_erase]
  by_cases hpath : path ∈ blocked disk files moves
  · rw [if_pos hpath]
    obtain ⟨d', hd', hnot⟩ := mem_blocked.1 hpath
    refine iff_of_false nofun fun hmem => hnot ?_
    cases hd'.symm.trans hmem.1
    exact hmem.2
  · rw [if_neg hpath]
    refine ⟨fun hmem => ⟨hmem, ?_⟩, fun hmem => hmem.1⟩
    by_contra hnot
    exact hpath (mem_blocked.2 ⟨d, hmem, hnot⟩)

theorem size_erase_lt {moves : Moves} (h : blocked disk files moves ≠ []) :
    ((blocked disk files moves).foldl (fun m path => m.erase path) moves).size < moves.size := by
  obtain ⟨path, hpath⟩ := List.exists_mem_of_ne_nil _ h
  obtain ⟨d, hd, hnot⟩ := mem_blocked.1 hpath
  have hlist : ∀ m : Moves, m.toList.length = m.size := fun m => Std.ExtTreeMap.length_toList
  have hlost : (path, d) ∉ ((blocked disk files moves).foldl (fun m path => m.erase path) moves).toList := fun hmem =>
    hnot (((pairs_erase moves).le (BTreeMap.mem_toList.1 hmem)).2)
  rw [← hlist, ← hlist]
  have hsub : ((path, d) :: ((blocked disk files moves).foldl (fun m path => m.erase path) moves).toList).Subperm
      moves.toList := by
    refine (List.nodup_cons.2 ⟨hlost, BTreeMap.toList_nodup_keys _⟩).subperm fun m hm => ?_
    rcases List.mem_cons.1 hm with rfl | hm
    · exact BTreeMap.mem_toList.2 hd
    · exact BTreeMap.mem_toList.2 ((pairs_erase moves).le (BTreeMap.mem_toList.1 hm)).1
  exact hsub.length_le

/-- What the loop comes to. -/
def Greatest (disk : Disk) (files : List String) (s : Set (String × String)) (r : Except Unit Moves) : Prop :=
  ∃ kept, r = .ok kept ∧ IsGreatest (prunable (Lands disk files) s) (pairs kept)

theorem retain_greatest {fuel : Nat} {moves : Moves} (hfuel : moves.size < fuel) :
    Greatest disk files {m ∈ pairs moves | Unshared (pairs moves) m}
      (retainNoncollidingMoves disk files fuel moves) := by
  rw [← pairs_unshared]
  refine loop_rule (I := fun _ => True) (R := fun s r => Greatest disk files (pairs s) r) Std.ExtTreeMap.size
    (fun s _ => ?_) trivial (lt_of_le_of_lt Std.ExtTreeMap.size_filter_le_size hfuel)
  rw [retainStep]
  by_cases hblocked : blocked disk files s = []
  · rw [if_pos (by rw [hblocked]; rfl)]
    refine ⟨s, rfl, isGreatest_of_stable fun m hm => ?_⟩
    by_contra hnot
    have hmem := mem_blocked.2 ⟨m.2, hm, hnot⟩
    rw [hblocked] at hmem
    cases hmem
  · rw [if_neg (by rw [List.isEmpty_iff]; exact hblocked)]
    refine ⟨trivial, size_erase_lt hblocked, fun r ⟨kept, hr, hgreatest⟩ => ⟨kept, hr, ?_⟩⟩
    rwa [pairs_erase, prunable_prune lands_mono] at hgreatest

end

/-! ## Carrying the moves out -/

/-- What lies at each path once all moves are made at once. -/
def applyAll {C : Type} (moves : Moves) (before : String → Option C) (path : String) : Option C :=
  match moves.toList.find? (fun m => m.2 = path) with
  | some m => before m.1
  | none   => if moves.contains path then none else before path

section
variable {disk : Disk} {files : List String} {C : Type} {kept : Moves} {before : String → Option C}

theorem applyAll_destination (hdistinct : ∀ m ∈ pairs kept, Unshared (pairs kept) m) {m : String × String}
    (hm : m ∈ pairs kept) : applyAll kept before m.2 = before m.1 := by
  have hfound : ∃ m', kept.toList.find? (fun e => e.2 = m.2) = some m' := by
    rw [← Option.isSome_iff_exists, List.find?_isSome]
    exact ⟨m, BTreeMap.mem_toList.2 hm, decide_eq_true rfl⟩
  obtain ⟨m', hm'⟩ := hfound
  have hdest : m'.2 = m.2 := by simpa using List.find?_some hm'
  have hmem : m' ∈ pairs kept := BTreeMap.mem_toList.1 (List.mem_of_find?_eq_some hm')
  unfold applyAll
  simp only [hm', hdistinct m hm m' hmem hdest]

theorem applyAll_untouched (hlands : Stable (Lands disk files) (pairs kept))
    (hfree : ∀ path, taken disk files path = false → before path = none) {path : String} (hthere : before path ≠ none)
    (hstays : kept.contains path = false) : applyAll kept before path = before path := by
  unfold applyAll
  cases hfound : kept.toList.find? (fun m => m.2 = path) with
  | none => simp only [hstays, Bool.false_eq_true, if_false]
  | some m =>
    have hdest : m.2 = path := by simpa using List.find?_some hfound
    have hmem : m ∈ pairs kept := BTreeMap.mem_toList.1 (List.mem_of_find?_eq_some hfound)
    rcases hlands m hmem with hnot | hleft
    · exact absurd (hfree path (hdest ▸ hnot)) hthere
    · rw [← contains_iff_pairs, hdest, hstays] at hleft
      cases hleft

end

/-- **What is kept can be carried out at once** — The loop ends, with the greatest set of the proposals not sharing a
destination in which every destination is free or left by a move of the set; and no file is lost by it. -/
theorem kept_together (disk : Disk) (files : List String) (moves : Moves) (fuel : Nat) (hfuel : moves.size < fuel) :
    ∃ kept, retainNoncollidingMoves disk files fuel moves = .ok kept ∧
      (∀ m ∈ pairs kept, ∀ m' ∈ pairs kept, m.2 = m'.2 → m = m') ∧
      (∀ m ∈ pairs kept, taken disk files m.2 = false ∨ ∃ m' ∈ pairs kept, m'.1 = m.2) ∧
      IsGreatest {s | (∀ m ∈ s, m ∈ pairs moves ∧ ∀ m' ∈ pairs moves, m'.2 = m.2 → m' = m) ∧
        ∀ m ∈ s, taken disk files m.2 = false ∨ ∃ m' ∈ s, m'.1 = m.2} (pairs kept) ∧
      ∀ (C : Type) (before : String → Option C), (∀ path, taken disk files path = false → before path = none) →
        (∀ m ∈ pairs kept, applyAll kept before m.2 = before m.1) ∧
        ∀ path, before path ≠ none → kept.contains path = false → applyAll kept before path = before path := by
  obtain ⟨kept, hkept, hgreatest⟩ := @retain_greatest disk files _ _ hfuel
  have hlands : ∀ s m, Lands disk files s m ↔ taken disk files m.2 = false ∨ ∃ m' ∈ s, m'.1 = m.2 := by
    intro s m
    refine or_congr_right ⟨fun ⟨d, hd⟩ => ⟨_, hd, rfl⟩, ?_⟩
    rintro ⟨⟨path, d⟩, hmem, rfl⟩
    exact ⟨d, hmem⟩
  have hdistinct : ∀ m ∈ pairs kept, Unshared (pairs kept) m := fun m hm m' hm' hdest =>
    (hgreatest.1.1 hm).2 m' (hgreatest.1.1 hm').1 hdest
  refine ⟨kept, hkept, fun m hm m' hm' hdest => hdistinct m' hm' m hm hdest,
    fun m hm => (hlands _ _).1 (hgreatest.1.2 m hm), ?_, ?_⟩
  · have hset : {s | (∀ m ∈ s, m ∈ pairs moves ∧ ∀ m' ∈ pairs moves, m'.2 = m.2 → m' = m) ∧
        ∀ m ∈ s, taken disk files m.2 = false ∨ ∃ m' ∈ s, m'.1 = m.2} =
        prunable (Lands disk files) {m ∈ pairs moves | Unshared (pairs moves) m} := by
      ext s
      exact and_congr_right fun _ => forall₂_congr fun m _ => (hlands s m).symm
    rw [hset]
    exact hgreatest
  · intro C before hfree
    exact ⟨fun m hm => applyAll_destination hdistinct hm,
      fun path hthere hstays => applyAll_untouched hgreatest.1.2 hfree hthere hstays⟩

/-- A move of a file onto itself. -/
def ownMove : Moves := (∅ : Moves).insert "0_item.ts" "0_item.ts"

theorem size_ownMove : ownMove.size < 2 := by
  unfold ownMove
  rw [Std.ExtTreeMap.size_insert]
  simp

def bareDisk : Disk where
  symlinkMetadata _ := false
  join path         := path

theorem own_move_kept : ∃ kept, retainNoncollidingMoves bareDisk ["0_item.ts"] 2 ownMove = .ok kept ∧
    ∀ m ∈ pairs kept, taken bareDisk ["0_item.ts"] m.2 = false ∨ ∃ m' ∈ pairs kept, m'.1 = m.2 := by
  obtain ⟨kept, hkept, -, hlands, -⟩ := kept_together bareDisk ["0_item.ts"] ownMove 2 size_ownMove
  exact ⟨kept, hkept, hlands⟩

/-- The destination of a move that is kept need not be free nor left by another one. -/
theorem own_move_stays : ¬ ∀ (disk : Disk) (files : List String) (moves kept : Moves) (fuel : Nat),
    retainNoncollidingMoves disk files fuel moves = .ok kept → ∀ m ∈ pairs kept,
      taken disk files m.2 = false ∨ ∃ m' ∈ pairs kept, m' ≠ m ∧ m'.1 = m.2 := by
  intro h
  obtain ⟨kept, hkept, hgreatest⟩ := @retain_greatest bareDisk ["0_item.ts"] _ _ size_ownMove
  have hpairs : pairs ownMove = {("0_item.ts", "0_item.ts")} := by
    ext ⟨path, d⟩
    rw [mem_pairs, ownMove, BTreeMap.getElem?_insert, Set.mem_singleton_iff, Prod.mk.injEq]
    by_cases hpath : path = "0_item.ts"
    · simp [hpath, eq_comm]
    · simp [hpath, Ne.symm hpath]
  have hkeeps : ("0_item.ts", "0_item.ts") ∈ pairs kept := by
    have hstable : {("0_item.ts", "0_item.ts")} ∈ prunable (Lands bareDisk ["0_item.ts"])
        {m ∈ pairs ownMove | Unshared (pairs ownMove) m} := ?_
    · exact hgreatest.2 hstable rfl
    refine ⟨?_, ?_⟩
    · rintro m rfl
      rw [hpairs]
      exact ⟨rfl, fun m' hm' _ => hm'⟩
    · rintro m rfl
      exact Or.inr ⟨"0_item.ts", rfl⟩
  rcases h bareDisk ["0_item.ts"] ownMove kept 2 hkept _ hkeeps with hfree | ⟨m', hm', hne, -⟩
  · exact absurd hfree (by decide)
  · have hown := (hgreatest.1.1 hm').1
    rw [hpairs] at hown
    exact hne hown

end SprefaExtract
