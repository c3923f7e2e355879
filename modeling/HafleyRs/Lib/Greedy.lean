import Mathlib

/-!
# Greedy windows of a list

A list is cut from left to right. `opens s a` says that `a` does not belong to the window whose state is
`s`; it then opens a window of its own, with the state `enter a`, and otherwise the state becomes
`stay s a`. `windows` are the pieces, each with its opener, and `states` the elements one by one, each
with the state after it. A part `key` of the state that `stay` keeps is one value for each window
(`states_tagged`). Windows whose keys rise are the groups of the elements with one key
(`filter_tagged`, `sortedKeys_tagged`), and only then (`length_keys_lt`).
-/

namespace Greedy
variable {A S K : Type*} (opens : S → A → Bool) (enter : A → S) (stay : S → A → S)

/-- What stays in the window of state `s`, and the windows behind it. -/
def cut : S → List A → List A × List (A × List A)
  | _, [] => ([], [])
  | s, a :: as =>
    if opens s a then
      let (rest, later) := cut (enter a) as
      ([], (a, rest) :: later)
    else
      let (rest, later) := cut (stay s a) as
      (a :: rest, later)

def windows : List A → List (A × List A)
  | [] => []
  | a :: as => (a, (cut opens enter stay (enter a) as).1) :: (cut opens enter stay (enter a) as).2

def walk : S → List A → List (A × S)
  | _, [] => []
  | s, a :: as =>
    let s' := if opens s a then enter a else stay s a
    (a, s') :: walk s' as

def states : List A → List (A × S)
  | [] => []
  | a :: as => (a, enter a) :: walk opens enter stay (enter a) as

/-- The elements of a window. -/
def members (w : A × List A) : List A := w.1 :: w.2

variable {opens enter stay}

theorem cut_flatten (s : S) (as : List A) :
    (cut opens enter stay s as).1 ++ (cut opens enter stay s as).2.flatMap members = as := by
  induction as generalizing s with
  | nil => rfl
  | cons a as ih =>
    unfold cut
    split
    · rw [List.nil_append, List.flatMap_cons, members, List.cons_append, ih]
    · rw [List.cons_append, ih]

/-- **Each element is in one window**, in order. -/
theorem windows_flatten (as : List A) : (windows opens enter stay as).flatMap members = as := by
  cases as with
  | nil => rfl
  | cons a as => rw [windows, List.flatMap_cons, members, List.cons_append, cut_flatten]

theorem openers_sublist (ws : List (A × List A)) : (ws.map Prod.fst).Sublist (ws.flatMap members) := by
  induction ws with
  | nil => exact .slnil
  | cons w ws ih =>
    rw [List.map_cons, List.flatMap_cons, members, List.cons_append]
    exact (ih.trans (List.sublist_append_right ..)).cons_cons _

variable (enter) in
/-- The members of the windows, each with the key its window opened with. -/
def tagged (key : S → K) (ws : List (A × List A)) : List (A × K) :=
  ws.flatMap fun w => (members w).map fun a => (a, key (enter w.1))

theorem walk_tagged {key : S → K} (hkey : ∀ s a, key (stay s a) = key s) (s : S) (as : List A) :
    (walk opens enter stay s as).map (fun p => (p.1, key p.2)) =
      (cut opens enter stay s as).1.map (fun a => (a, key s)) ++
        tagged enter key (cut opens enter stay s as).2 := by
  induction as generalizing s with
  | nil => rfl
  | cons a as ih =>
    unfold cut walk
    by_cases h : opens s a = true
    · simp only [if_pos h, List.map_cons, List.map_nil, List.nil_append]
      rw [ih]
      rfl
    · simp only [if_neg h, List.map_cons, List.cons_append]
      rw [ih, hkey]

theorem states_tagged {key : S → K} (hkey : ∀ s a, key (stay s a) = key s) (as : List A) :
    (states opens enter stay as).map (fun p => (p.1, key p.2)) = tagged enter key (windows opens enter stay as) := by
  cases as with
  | nil => rfl
  | cons a as =>
    rw [states, List.map_cons, walk_tagged hkey]
    rfl

/-! ## Windows as groups -/

section groups
variable {key : S → K} {ws : List (A × List A)}

/-- The keys of the windows. -/
def keys (enter : A → S) (key : S → K) (ws : List (A × List A)) : List K := ws.map fun w => key (enter w.1)

theorem mem_tagged_key {p : A × K} (hp : p ∈ tagged enter key ws) : p.2 ∈ keys enter key ws := by
  obtain ⟨w, hw, hin⟩ := List.mem_flatMap.1 hp
  obtain ⟨a, -, rfl⟩ := List.mem_map.1 hin
  exact List.mem_map_of_mem hw

variable [LinearOrder K]

/-- A group is a window, when no two windows have one key. -/
theorem filter_tagged (h : (keys enter key ws).Nodup) {w : A × List A} (hw : w ∈ ws) :
    (tagged enter key ws).filter (fun p => p.2 = key (enter w.1)) =
      (members w).map fun a => (a, key (enter w.1)) := by
  induction ws with
  | nil => cases hw
  | cons v ws ih =>
    obtain ⟨hnot, hrest⟩ := List.nodup_cons.1 h
    rw [tagged, List.flatMap_cons, List.filter_append, ← tagged]
    rcases List.mem_cons.1 hw with rfl | hw
    · have hfirst : ((members w).map fun a => (a, key (enter w.1))).filter
          (fun p => decide (p.2 = key (enter w.1))) = (members w).map fun a => (a, key (enter w.1)) := by
        rw [List.filter_eq_self]
        intro p hp
        obtain ⟨a, -, rfl⟩ := List.mem_map.1 hp
        exact decide_eq_true rfl
      have hlater : (tagged enter key ws).filter (fun p => decide (p.2 = key (enter w.1))) = [] := by
        rw [List.filter_eq_nil_iff]
        intro p hp hsame
        have hin := mem_tagged_key hp
        rw [of_decide_eq_true hsame] at hin
        exact hnot hin
      rw [hfirst, hlater, List.append_nil]
    · have hother : key (enter v.1) ≠ key (enter w.1) := by
        intro hsame
        exact hnot (List.mem_map.2 ⟨w, hw, hsame.symm⟩)
      have hfirst : ((members v).map fun a => (a, key (enter v.1))).filter
          (fun p => decide (p.2 = key (enter w.1))) = [] := by
        rw [List.filter_eq_nil_iff]
        intro p hp
        obtain ⟨a, -, rfl⟩ := List.mem_map.1 hp
        simpa using hother
      rw [hfirst, List.nil_append, ih hrest hw]

/-- The distinct keys, rising. -/
def sortedKeys (rows : List (A × K)) : List K := (rows.map Prod.snd).toFinset.sort (· ≤ ·)

theorem toFinset_tagged : ((tagged enter key ws).map Prod.snd).toFinset = (keys enter key ws).toFinset := by
  ext k
  rw [List.mem_toFinset, List.mem_toFinset]
  constructor
  · intro hk
    obtain ⟨p, hp, rfl⟩ := List.mem_map.1 hk
    exact mem_tagged_key hp
  · intro hk
    obtain ⟨w, hw, rfl⟩ := List.mem_map.1 hk
    exact List.mem_map.2 ⟨(w.1, key (enter w.1)), List.mem_flatMap.2 ⟨w, hw, by simp [members]⟩, rfl⟩

theorem sortedKeys_tagged (h : (keys enter key ws).Pairwise (· < ·)) :
    sortedKeys (tagged enter key ws) = keys enter key ws := by
  rw [sortedKeys, toFinset_tagged]
  exact List.toFinset_sort (· ≤ ·) (h.imp fun hlt => hlt.ne) |>.2 (h.imp le_of_lt)

/-- Two windows with one key make a group too few. -/
theorem length_keys_lt (h : ¬ (keys enter key ws).Nodup) :
    (sortedKeys (tagged enter key ws)).length < (keys enter key ws).length := by
  rw [sortedKeys, Finset.length_sort, toFinset_tagged]
  refine lt_of_le_of_ne (List.toFinset_card_le _) fun heq => h (Multiset.coe_nodup.1 ?_)
  exact Multiset.toFinset_card_eq_card_iff_nodup.1 heq

end groups

end Greedy
