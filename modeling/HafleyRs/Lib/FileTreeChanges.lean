import HafleyRs.Lib.FileTreeViews

/-!
# Changes of a file tree that do not meet

A `Change` writes, moves or deletes one file; its sites are the paths of the file. Changes whose sites do not nest
(`Apart`) do not disturb one another, so a list of them has one outcome, `View.after`, whatever the order and
however the work was cut into runs. `Midway` says what is seen when some of the changes are done: the sites of
those are settled, the other sites are as they were, and nothing else is changed but for directories made on the
way to a destination. Doing one more change keeps it (`Midway.step`), and when all are done what is seen is the
outcome (`Midway.finished`).
-/

namespace FileTree
variable {β : Type}

inductive Change (β : Type) where
  | write (dst : Path) (bytes : β) (mode : Nat)
  | move (src dst : Path)
  | delete (src : Path)

def Entry.isFile : Option (Entry β) → Bool
  | some (.file _ _) => true
  | _ => false

theorem Entry.exists_of_isFile {e : Option (Entry β)} (h : Entry.isFile e = true) :
    ∃ bytes mode, e = some (.file bytes mode) := by
  cases e with
  | none => cases h
  | some e =>
    cases e with
    | file bytes mode => exact ⟨bytes, mode, rfl⟩
    | dir w => cases h
    | link v => cases h

theorem Entry.isDir_of_isFile {e : Option (Entry β)} (h : Entry.isFile e = true) : Entry.isDir e = false := by
  obtain ⟨bytes, mode, rfl⟩ := Entry.exists_of_isFile h
  rfl

namespace Change

def sites : Change β → List Path
  | .write dst _ _ => [dst]
  | .move src dst => [src, dst]
  | .delete src => [src]

def dest : Change β → Option Path
  | .write dst _ _ => some dst
  | .move _ dst => some dst
  | .delete _ => none

/-- A directory on the way to the destination. -/
def Above (c : Change β) (q : Path) : Prop := ∃ d, c.dest = some d ∧ q <+: d ∧ q ≠ d

/-- What is to be seen at a site. -/
def target (V : View β) (c : Change β) (q : Path) : Option (Entry β) :=
  match c with
  | .write _ bytes mode => some (.file bytes mode)
  | .move src _ => if q = src then none else V src
  | .delete _ => none

/-- What is seen once the change is made where it can be. -/
def effect (V : View β) : Change β → View β
  | .write dst bytes mode => (V.made dst.dropLast).put dst bytes mode
  | .move src dst => (V.made dst.dropLast).moved src dst
  | .delete src => V.gone src

/-- The change can be made: a write makes a file or replaces one, a move goes where nothing is. -/
structure Ready (V : View β) (c : Change β) : Prop where
  clear : ∀ q ∈ c.sites, View.Clear V q
  ne    : ∀ q ∈ c.sites, q ≠ []
  write : ∀ dst bytes mode, c = .write dst bytes mode → V dst = none ∨ Entry.isFile (V dst) = true
  move  : ∀ src dst, c = .move src dst → Entry.isFile (V src) = true ∧ V dst = none ∧ ¬ dst <+: src
  gone  : ∀ src, c = .delete src → Entry.isFile (V src) = true

theorem dest_mem {c : Change β} {d : Path} (h : c.dest = some d) : d ∈ c.sites := by
  cases c with
  | write dst bytes mode => simpa [dest, sites, eq_comm] using h
  | move src dst => simpa [dest, sites, eq_comm] using .inr (Option.some.inj h).symm
  | delete src => cases h

/-- The two ends of a move do not nest: one is a file and the other is nothing. -/
theorem Ready.site_eq {V : View β} {c : Change β} (h : Ready V c) {p q : Path} (hp : p ∈ c.sites)
    (hq : q ∈ c.sites) (hle : p <+: q) : p = q := by
  cases c with
  | write dst bytes mode =>
    simp only [sites, List.mem_singleton] at hp hq
    rw [hp, hq]
  | delete src =>
    simp only [sites, List.mem_singleton] at hp hq
    rw [hp, hq]
  | move src dst =>
    obtain ⟨hfile, hnone, hnest⟩ := h.move src dst rfl
    simp only [sites, List.mem_cons, List.not_mem_nil, or_false] at hp hq
    rcases hp with rfl | rfl
    · rcases hq with rfl | rfl
      · rfl
      · by_contra hne
        obtain ⟨bytes, mode, hsrc⟩ := Entry.exists_of_isFile hfile
        have hclear := h.clear q (by simp [sites]) p hle hne
        rw [hsrc] at hclear
        simp [Entry.isDir] at hclear
    · rcases hq with rfl | rfl
      · exact absurd hle hnest
      · rfl

theorem Ready.ends_ne {V : View β} {src dst : Path} (h : Ready V (.move src dst)) : src ≠ dst := by
  rintro rfl
  exact (h.move src src rfl).2.2 (List.prefix_refl _)

end Change

/-! ## Changes that stay apart -/

/-- No site of one is, or is above, a site of the other. -/
def Change.Apart (c c' : Change β) : Prop := ∀ p ∈ c.sites, ∀ q ∈ c'.sites, ¬ p <+: q ∧ ¬ q <+: p

def Apart (cs : List (Change β)) : Prop := cs.Pairwise Change.Apart

theorem Apart.at {cs : List (Change β)} (h : Apart cs) {i j : Nat} {c c' : Change β} (hi : cs[i]? = some c)
    (hj : cs[j]? = some c') (hne : i ≠ j) : Change.Apart c c' := by
  obtain ⟨hilt, rfl⟩ := List.getElem?_eq_some_iff.1 hi
  obtain ⟨hjlt, rfl⟩ := List.getElem?_eq_some_iff.1 hj
  rcases Nat.lt_or_gt_of_ne hne with hlt | hlt
  · exact List.pairwise_iff_getElem.1 h i j hilt hjlt hlt
  · intro p hp q hq
    exact (List.pairwise_iff_getElem.1 h j i hjlt hilt hlt q hq p hp).symm

open scoped Classical in
/-- What is seen when all changes are done. -/
noncomputable def View.after (V : View β) (cs : List (Change β)) : View β := fun q =>
  haveI := Classical.dec (∃ c ∈ cs, q ∈ c.sites)
  if h : ∃ c ∈ cs, q ∈ c.sites then h.choose.target V q
  else if V q = none ∧ ∃ c ∈ cs, c.Above q then some (.dir true)
  else V q

/-- The changes done are settled, the others are to be made. -/
structure Midway (V₀ : View β) (cs : List (Change β)) (done : Nat → Prop) (V : View β) : Prop where
  settled : ∀ i c, cs[i]? = some c → done i → ∀ p ∈ c.sites, V p = c.target V₀ p
  pending : ∀ i c, cs[i]? = some c → ¬ done i → ∀ p ∈ c.sites, V p = V₀ p
  frame   : ∀ q, (∀ c ∈ cs, q ∉ c.sites) →
    V q = V₀ q ∨ (V₀ q = none ∧ V q = some (.dir true) ∧ ∃ c ∈ cs, c.Above q)

namespace Midway
variable {V₀ V : View β} {cs : List (Change β)} {done : Nat → Prop}

theorem start (V₀ : View β) (cs : List (Change β)) : Midway V₀ cs (fun _ => False) V₀ where
  settled _ _ _ h := h.elim
  pending _ _ _ _ _ _ := rfl
  frame _ _ := .inl rfl

/-- A path above a site is no site. -/
theorem above_not_site (hapart : Apart cs) (hready : ∀ c ∈ cs, Change.Ready V₀ c) {c : Change β} (hc : c ∈ cs)
    {p q : Path} (hp : p ∈ c.sites) (hq : q <+: p) (hne : q ≠ p) : ∀ c' ∈ cs, q ∉ c'.sites := by
  intro c' hc' hq'
  obtain ⟨i, hi⟩ := List.mem_iff_getElem?.1 hc
  obtain ⟨j, hj⟩ := List.mem_iff_getElem?.1 hc'
  by_cases hij : i = j
  · subst hij
    obtain rfl : c = c' := Option.some.inj (hi.symm.trans hj)
    exact hne ((hready c hc).site_eq hq' hp hq)
  · exact (hapart.at hi hj hij p hp q hq').2 hq

/-- What is above a site stays free for directories. -/
theorem clear (h : Midway V₀ cs done V) (hapart : Apart cs) (hready : ∀ c ∈ cs, Change.Ready V₀ c) {c : Change β}
    (hc : c ∈ cs) {p : Path} (hp : p ∈ c.sites) : View.Clear V p := by
  intro q hq hne
  rcases h.frame q (above_not_site hapart hready hc hp hq hne) with hsame | ⟨-, hdir, -⟩
  · rw [hsame]
    exact (hready c hc).clear p hp q hq hne
  · rw [hdir]
    exact .inr rfl

theorem target_not_dir (hready : ∀ c ∈ cs, Change.Ready V₀ c) {c : Change β} (hc : c ∈ cs) (q : Path) :
    Entry.isDir (c.target V₀ q) = false := by
  cases c with
  | write dst bytes mode => rfl
  | delete src => rfl
  | move src dst =>
    by_cases hq : q = src
    · simp [Change.target, hq, Entry.isDir]
    · simpa [Change.target, hq] using Entry.isDir_of_isFile ((hready _ hc).move src dst rfl).1

/-- Directories can be edited all the way when they could be at the start. -/
theorem isOpen (h : Midway V₀ cs done V) (hready : ∀ c ∈ cs, Change.Ready V₀ c) (hopen : View.Open V₀) :
    View.Open V := by
  intro q w hq
  by_cases hsite : ∃ c ∈ cs, q ∈ c.sites
  · obtain ⟨c, hc, hmem⟩ := hsite
    obtain ⟨i, hi⟩ := List.mem_iff_getElem?.1 hc
    by_cases hd : done i
    · have hdir := target_not_dir hready hc q
      rw [← h.settled i c hi hd q hmem, hq] at hdir
      cases hdir
    · rw [h.pending i c hi hd q hmem] at hq
      exact hopen q w hq
  · push Not at hsite
    rcases h.frame q hsite with hsame | ⟨-, hdir, -⟩
    · rw [hsame] at hq
      exact hopen q w hq
    · rw [hdir] at hq
      cases hq
      rfl

/-- The change sees its own sites as they were at the start. -/
theorem effect_congr (h : Midway V₀ cs done V) {i : Nat} {c : Change β} (hi : cs[i]? = some c) (hd : ¬ done i) :
    c.target V = c.target V₀ := by
  funext q
  cases c with
  | write dst bytes mode => rfl
  | delete src => rfl
  | move src dst =>
    have hsrc := h.pending i _ hi hd src (by simp [Change.sites])
    simp only [Change.target, hsrc]

end Midway

/-! ## One more change -/

namespace Change

theorem effect_site {V : View β} {c : Change β} (h : Ready V c) {q : Path} (hq : q ∈ c.sites) :
    c.effect V q = c.target V q := by
  cases c with
  | write dst bytes mode =>
    simp only [sites, List.mem_singleton] at hq
    simp [effect, target, hq]
  | delete src =>
    simp only [sites, List.mem_singleton] at hq
    simp [effect, target, hq]
  | move src dst =>
    obtain ⟨hfile, -, -⟩ := h.move src dst rfl
    simp only [sites, List.mem_cons, List.not_mem_nil, or_false] at hq
    rcases hq with rfl | rfl
    · simp [effect, target]
    · have hthere : V src ≠ none := by
        obtain ⟨bytes, mode, hsrc⟩ := Entry.exists_of_isFile hfile
        simp [hsrc]
      simp only [effect, target]
      rw [View.moved_dst _ h.ends_ne, View.made_of_some hthere, if_neg (Ne.symm h.ends_ne)]

/-- Elsewhere the change makes directories above its destination. -/
theorem effect_elsewhere (V : View β) {c : Change β} {q : Path} (hq : q ∉ c.sites) :
    c.effect V q = V q ∨ (V q = none ∧ c.effect V q = some (.dir true) ∧ c.Above q) := by
  have hmade : ∀ dst : Path, q ≠ dst → V.made dst.dropLast q = V q ∨
      (V q = none ∧ V.made dst.dropLast q = some (.dir true) ∧ q <+: dst) := by
    intro dst _
    by_cases h : V q = none ∧ q <+: dst.dropLast
    · exact .inr ⟨h.1, if_pos h, h.2.trans (List.dropLast_prefix dst)⟩
    · exact .inl (if_neg h)
  cases c with
  | write dst bytes mode =>
    have hne : q ≠ dst := by simpa [sites] using hq
    rw [effect, View.put_of_ne _ _ _ hne]
    rcases hmade dst hne with h | ⟨hnone, hdir, hle⟩
    · exact .inl h
    · exact .inr ⟨hnone, hdir, dst, rfl, hle, hne⟩
  | move src dst =>
    have hne : q ≠ src ∧ q ≠ dst := by simpa [sites] using hq
    rw [effect, View.moved_of_ne _ hne.1 hne.2]
    rcases hmade dst hne.2 with h | ⟨hnone, hdir, hle⟩
    · exact .inl h
    · exact .inr ⟨hnone, hdir, dst, rfl, hle, hne.2⟩
  | delete src =>
    have hne : q ≠ src := by simpa [sites] using hq
    exact .inl (View.gone_of_ne V hne)

end Change

namespace Midway
variable {V₀ V : View β} {cs : List (Change β)} {done : Nat → Prop}

/-- A change that is to be made can be. -/
theorem ready (h : Midway V₀ cs done V) (hapart : Apart cs) (hready : ∀ c ∈ cs, Change.Ready V₀ c) {i : Nat}
    {c : Change β} (hi : cs[i]? = some c) (hd : ¬ done i) : Change.Ready V c := by
  have hc := List.mem_of_getElem? hi
  have hsame := h.pending i c hi hd
  constructor
  · intro q hq
    exact h.clear hapart hready hc hq
  · exact (hready c hc).ne
  · rintro dst bytes mode rfl
    rw [hsame dst (by simp [Change.sites])]
    exact (hready _ hc).write dst bytes mode rfl
  · rintro src dst rfl
    rw [hsame src (by simp [Change.sites]), hsame dst (by simp [Change.sites])]
    exact (hready _ hc).move src dst rfl
  · rintro src rfl
    rw [hsame src (by simp [Change.sites])]
    exact (hready _ hc).gone src rfl

theorem step (h : Midway V₀ cs done V) (hapart : Apart cs) (hready : ∀ c ∈ cs, Change.Ready V₀ c) {i : Nat}
    {c : Change β} (hi : cs[i]? = some c) (hd : ¬ done i) :
    Midway V₀ cs (fun j => j = i ∨ done j) (c.effect V) := by
  have hc := List.mem_of_getElem? hi
  have hother : ∀ j c', cs[j]? = some c' → j ≠ i → ∀ p ∈ c'.sites, c.effect V p = V p := by
    intro j c' hj hne p hp
    have hnot : p ∉ c.sites := fun hpc => (hapart.at hj hi hne p hp p hpc).1 (List.prefix_refl _)
    rcases Change.effect_elsewhere V hnot with hsame | ⟨-, -, d, hdest, hle, -⟩
    · exact hsame
    · exact absurd hle (hapart.at hj hi hne p hp d (Change.dest_mem hdest)).1
  constructor
  · intro j c' hj hdj p hp
    by_cases hji : j = i
    · subst hji
      obtain rfl : c' = c := Option.some.inj (hj.symm.trans hi)
      rw [Change.effect_site (h.ready hapart hready hi hd) hp, h.effect_congr hi hd]
    · rw [hother j c' hj hji p hp]
      exact h.settled j c' hj (hdj.resolve_left hji) p hp
  · intro j c' hj hdj p hp
    push Not at hdj
    rw [hother j c' hj hdj.1 p hp]
    exact h.pending j c' hj hdj.2 p hp
  · intro q hq
    rcases Change.effect_elsewhere V (hq c hc) with hsame | ⟨hnone, hdir, habove⟩
    · rw [hsame]
      exact h.frame q hq
    · rcases h.frame q hq with hV | ⟨-, hV, -⟩
      · exact .inr ⟨hV ▸ hnone, hdir, c, hc, habove⟩
      · rw [hnone] at hV
        cases hV

end Midway

/-! ## The outcome -/

/-- Every path above what is there is a directory. -/
def View.Rooted (V : View β) : Prop := ∀ p q, V p ≠ none → q <+: p → q ≠ p → Entry.isDir (V q) = true

theorem Files.look_rooted (t : Files β) : View.Rooted t.look := fun _ _ hp hq hne => Files.look_above hp hq hne

/-- Two entries that differ in the mode of a file at most. -/
def Entry.Alike (e e' : Option (Entry β)) : Prop :=
  e = e' ∨ ∃ bytes mode mode', e = some (.file bytes mode) ∧ e' = some (.file bytes mode')

/-- The change writes what is there. -/
def Change.Idle (V : View β) (c : Change β) : Prop :=
  ∃ dst bytes mode mode', c = .write dst bytes mode ∧ V dst = some (.file bytes mode')

/-- The change writes what is there, the mode with it. -/
def Change.Still (V : View β) (c : Change β) : Prop :=
  ∃ dst bytes mode, c = .write dst bytes mode ∧ V dst = some (.file bytes mode)

theorem View.after_site {V : View β} {cs : List (Change β)} (hapart : Apart cs) {c : Change β} (hc : c ∈ cs)
    {q : Path} (hq : q ∈ c.sites) : V.after cs q = c.target V q := by
  have hex : ∃ c ∈ cs, q ∈ c.sites := ⟨c, hc, hq⟩
  obtain ⟨hmem, hsite⟩ := hex.choose_spec
  have hsame : hex.choose = c := by
    obtain ⟨i, hi⟩ := List.mem_iff_getElem?.1 hmem
    obtain ⟨j, hj⟩ := List.mem_iff_getElem?.1 hc
    by_cases hij : i = j
    · subst hij
      exact Option.some.inj (hi.symm.trans hj)
    · exact absurd (List.prefix_refl q) (hapart.at hi hj hij q hsite q hq).1
  rw [View.after, dif_pos hex, hsame]

theorem Entry.Alike.file {e : Option (Entry β)} {bytes : β} {mode : Nat}
    (h : Entry.Alike e (some (.file bytes mode))) : ∃ mode', e = some (.file bytes mode') := by
  rcases h with rfl | ⟨bytes', mode₁, mode₂, rfl, he⟩
  · exact ⟨mode, rfl⟩
  · cases he
    exact ⟨mode₁, rfl⟩

theorem Entry.Alike.none {e : Option (Entry β)} (h : Entry.Alike e none) : e = none := by
  rcases h with rfl | ⟨bytes', mode₁, mode₂, rfl, he⟩
  · rfl
  · cases he

theorem Entry.Alike.isDir {e e' : Option (Entry β)} (h : Entry.Alike e e') : Entry.isDir e = Entry.isDir e' := by
  rcases h with rfl | ⟨bytes', mode₁, mode₂, rfl, rfl⟩
  · rfl
  · rfl

namespace Midway
variable {V₀ V : View β} {cs : List (Change β)} {done : Nat → Prop}

/-- **One outcome.** When every change is done, or writes what was there, what is seen is the outcome, but for the
modes of files that were not written. -/
theorem finished (h : Midway V₀ cs done V) (hapart : Apart cs) (hready : ∀ c ∈ cs, Change.Ready V₀ c)
    (hrooted : View.Rooted V) (hall : ∀ i c, cs[i]? = some c → done i ∨ c.Idle V₀) (q : Path) :
    Entry.Alike (V q) (V₀.after cs q) ∧
      ((∀ i c, cs[i]? = some c → done i ∨ c.Still V₀) → V q = V₀.after cs q) := by
  by_cases hsite : ∃ c ∈ cs, q ∈ c.sites
  · obtain ⟨c, hc, hq⟩ := hsite
    obtain ⟨i, hi⟩ := List.mem_iff_getElem?.1 hc
    rw [View.after_site hapart hc hq]
    by_cases hd : done i
    · exact ⟨.inl (h.settled i c hi hd q hq), fun _ => h.settled i c hi hd q hq⟩
    · have hsame := h.pending i c hi hd q hq
      refine ⟨?_, fun hstill => ?_⟩
      · obtain ⟨dst, bytes, mode, mode', rfl, hthere⟩ := (hall i c hi).resolve_left hd
        simp only [Change.sites, List.mem_singleton] at hq
        subst hq
        exact .inr ⟨bytes, mode', mode, hsame.trans hthere, rfl⟩
      · obtain ⟨dst, bytes, mode, rfl, hthere⟩ := (hstill i c hi).resolve_left hd
        simp only [Change.sites, List.mem_singleton] at hq
        subst hq
        exact hsame.trans hthere
  · have hnot : ∀ c ∈ cs, q ∉ c.sites := fun c hc hq => hsite ⟨c, hc, hq⟩
    have hsame : V q = V₀.after cs q := by
      rw [View.after, dif_neg hsite]
      by_cases hmade : V₀ q = none ∧ ∃ c ∈ cs, c.Above q
      · rw [if_pos hmade]
        obtain ⟨hnone, c, hc, d, hdest, hle, hne⟩ := hmade
        obtain ⟨i, hi⟩ := List.mem_iff_getElem?.1 hc
        have hthere : V d ≠ none := by
          by_cases hd : done i
          · rw [h.settled i c hi hd d (Change.dest_mem hdest)]
            cases c with
            | write dst bytes mode => simp [Change.target]
            | delete src => cases hdest
            | move src dst =>
              obtain rfl : dst = d := Option.some.inj hdest
              obtain ⟨bytes, mode, hfile⟩ := Entry.exists_of_isFile ((hready _ hc).move src dst rfl).1
              simp [Change.target, Ne.symm (hready _ hc).ends_ne, hfile]
          · obtain ⟨dst, bytes, mode, mode', rfl, hold⟩ := (hall i c hi).resolve_left hd
            obtain rfl : dst = d := Option.some.inj hdest
            rw [h.pending i _ hi hd dst (by simp [Change.sites]), hold]
            simp
        have hdir := hrooted d q hthere hle hne
        rcases h.frame q hnot with hV | ⟨-, hV, -⟩
        · rw [hV, hnone] at hdir
          cases hdir
        · exact hV
      · rw [if_neg hmade]
        rcases h.frame q hnot with hV | ⟨hnone, -, habove⟩
        · exact hV
        · exact absurd ⟨hnone, habove⟩ hmade
    exact ⟨.inl hsame, fun _ => hsame⟩

end Midway

namespace Files
variable {t t' : Files β} {pl src dst : Place} {bytes : β} {mode : Nat}

theorem stat_file (h : t.stat pl = .ok (.file mode)) :
    pl.slash = false ∧ ∃ bytes, t.look pl.names = some (.file bytes mode) := by
  unfold stat at h
  cases hl : t.look pl.names with
  | none =>
    rw [hl] at h
    have hnot : ∀ (done : Path) rest, t.behind done rest ≠ .ok (.file mode) := by
      intro done rest
      induction rest generalizing done with
      | nil => simp [behind]
      | cons name rest ih =>
        rw [behind]
        split
        · exact ih _
        · simp
        · simp
        · split <;> simp
        · simp
        · simp
    exact absurd h (hnot [] pl.names)
  | some e =>
    rw [hl] at h
    cases e with
    | dir w => simp at h
    | file bytes m =>
      by_cases hs : pl.slash = true
      · simp [hs] at h
      · simp only [hs, Bool.false_eq_true, if_false, Except.ok.injEq, Stat.file.injEq] at h
        exact ⟨by simpa using hs, bytes, by rw [h]⟩
    | link v =>
      by_cases hs : pl.slash = true
      · cases v <;> simp [hs] at h
      · simp [hs] at h

theorem stat_of_file (hslash : pl.slash = false) (h : t.look pl.names = some (.file bytes mode)) :
    t.stat pl = .ok (.file mode) := by
  simp [stat, h, hslash]

theorem read_of_file (hslash : pl.slash = false) (h : t.look pl.names = some (.file bytes mode)) :
    t.read pl = .ok bytes := by
  simp [read, h, hslash]

/-- Nothing at a path whose parents are directories, as far as they are there. -/
theorem behind_clear {done : Path} {rest : List String} (hnone : t.look (done ++ rest) = none)
    (hclear : ∀ q, done <+: q → q <+: done ++ rest → q ≠ done ++ rest → t.look q = none ∨ Entry.isDir (t.look q) = true) :
    t.behind done rest = .error .notFound := by
  induction rest generalizing done with
  | nil => rfl
  | cons name rest ih =>
    have hassoc : done ++ name :: rest = done ++ [name] ++ rest := by simp
    rw [behind]
    by_cases hlast : rest = []
    · subst hlast
      rw [hnone]
    · rw [hassoc] at hnone hclear
      have hnext := hclear (done ++ [name]) (List.prefix_append _ _) (List.prefix_append _ _) (by simpa using hlast)
      rcases hnext with hgone | hdir
      · rw [hgone]
      · have ih' := ih hnone fun q hle hq hne => hclear q ((List.prefix_append _ _).trans hle) hq hne
        cases hl : t.look (done ++ [name]) with
        | none => rfl
        | some e =>
          rw [hl] at hdir
          cases e with
          | dir w => exact ih'
          | file bytes m => cases hdir
          | link v => cases hdir

theorem stat_of_none (hclear : View.Clear t.look pl.names) (h : t.look pl.names = none) :
    t.stat pl = .error .notFound := by
  rw [stat, h]
  exact behind_clear (by simpa using h) fun q _ hq hne => hclear q (by simpa using hq) (by simpa using hne)

end Files

/-! ## Making a change -/

theorem not_prefix_dropLast {p : Path} (h : p ≠ []) : ¬ p <+: p.dropLast := by
  intro hle
  have hlen := hle.length_le
  have hpos := List.length_pos_iff.2 h
  rw [List.length_dropLast] at hlen
  omega

theorem dropLast_ne {p : Path} (h : p ≠ []) : p.dropLast ≠ p := fun he =>
  not_prefix_dropLast h (by rw [he])

namespace Files
variable {t t' : Files β} {pl src dst : Place} {bytes : β} {mode : Nat}

/-- The directories above a destination can be made. -/
theorem mkdirAll_above (hopen : View.Open t.look) {c : Change β} (hready : Change.Ready t.look c) {dst : Path}
    (hdest : c.dest = some dst) :
    (t.mkdirAll [] dst.dropLast).2 = true ∧
      (t.mkdirAll [] dst.dropLast).1.look = View.made t.look dst.dropLast ∧
      (t.mkdirAll [] dst.dropLast).1.canEdit dst.dropLast = true := by
  have hne := hready.ne dst (Change.dest_mem hdest)
  have hok : (t.mkdirAll [] dst.dropLast).2 = true := by
    refine mkdirAll_ok hopen t.look_root fun q _ hq => ?_
    refine hready.clear dst (Change.dest_mem hdest) q (hq.trans (List.dropLast_prefix dst)) ?_
    rintro rfl
    exact not_prefix_dropLast hne hq
  refine ⟨hok, mkdirAll_view hok, canEdit_of_open ?_ (mkdirAll_dirs hok t.look_root (List.prefix_refl _))⟩
  intro q w hq
  rcases mkdirAll_grows t [] dst.dropLast q with h | ⟨-, h, -⟩
  · rw [h] at hq
    exact hopen q w hq
  · rw [h] at hq
    cases hq
    rfl

theorem publish_change (hopen : View.Open t.look) (hslash : pl.slash = false)
    (hready : Change.Ready t.look (.write pl.names bytes mode)) :
    ∃ t', (t.mkdirAll [] pl.names.dropLast).1.publish pl bytes mode = .ok t' ∧
      t'.look = (Change.write pl.names bytes mode).effect t.look := by
  obtain ⟨hok, hview, hedit⟩ := mkdirAll_above hopen hready rfl
  have hne := hready.ne pl.names (by simp [Change.sites])
  have hfree : Entry.isDir ((t.mkdirAll [] pl.names.dropLast).1.look pl.names) = false := by
    rw [hview, View.made_of_not_prefix (not_prefix_dropLast hne)]
    rcases hready.write pl.names bytes mode rfl with h | h
    · rw [h]
      rfl
    · exact Entry.isDir_of_isFile h
  obtain ⟨t', hpublish, hlook⟩ := publish_view bytes mode hslash hne hedit hfree
  exact ⟨t', hpublish, by rw [hlook, hview]; rfl⟩

theorem rename_change (hopen : View.Open t.look) (hsrc : src.slash = false) (hdst : dst.slash = false)
    (hready : Change.Ready t.look (.move src.names dst.names)) :
    ∃ t', (t.mkdirAll [] dst.names.dropLast).1.rename src dst = .ok t' ∧
      t'.look = (Change.move src.names dst.names : Change β).effect t.look := by
  obtain ⟨hok, hview, hedit⟩ := mkdirAll_above hopen hready rfl
  obtain ⟨hfile, hnone, hnest⟩ := hready.move _ _ rfl
  obtain ⟨bytes, mode, hthere⟩ := Entry.exists_of_isFile hfile
  have hne := hready.ne dst.names (by simp [Change.sites])
  have hnesrc := hready.ne src.names (by simp [Change.sites])
  have hthere' : (t.mkdirAll [] dst.names.dropLast).1.look src.names = some (.file bytes mode) := by
    rw [hview, View.made_of_some (by simp [hthere]), hthere]
  have hnone' : (t.mkdirAll [] dst.names.dropLast).1.look dst.names = none := by
    rw [hview, View.made_of_not_prefix (not_prefix_dropLast hne), hnone]
  have hedit' : (t.mkdirAll [] dst.names.dropLast).1.canEdit src.names.dropLast = true := by
    have habove := look_above (t := t) (p := src.names) (by simp [hthere]) (List.dropLast_prefix _) (dropLast_ne hnesrc)
    have hdir : (t.mkdirAll [] dst.names.dropLast).1.look src.names.dropLast = t.look src.names.dropLast := by
      rw [hview, View.made_of_some]
      intro h
      rw [h] at habove
      cases habove
    have hcan := canEdit_of_open hopen habove
    unfold canEdit at hcan ⊢
    rwa [hdir]
  obtain ⟨t', hrename, hlook⟩ := rename_view hsrc hdst hne hedit' hedit (by simp [hthere'])
    (by simp [hthere', Entry.isDir]) hnone'
  exact ⟨t', hrename, by rw [hlook, hview]; rfl⟩

theorem remove_change (hopen : View.Open t.look) (hsrc : src.slash = false)
    (hready : Change.Ready t.look (.delete src.names)) :
    ∃ t', t.remove src = .ok t' ∧ t'.look = (Change.delete src.names : Change β).effect t.look := by
  obtain ⟨bytes, mode, hthere⟩ := Entry.exists_of_isFile (hready.gone _ rfl)
  have hne := hready.ne src.names (by simp [Change.sites])
  have habove := look_above (t := t) (p := src.names) (by simp [hthere]) (List.dropLast_prefix _) (dropLast_ne hne)
  exact remove_view hsrc (canEdit_of_open hopen habove) (by simp [hthere]) (by simp [hthere, Entry.isDir])

end Files

end FileTree
