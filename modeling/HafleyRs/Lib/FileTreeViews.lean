import HafleyRs.Lib.FileTree

/-!
# What the operations of a file tree do to what is seen

Each operation is described on views, the functions from paths to entries: `made` is a view with the directories
of a path made, and `put`, `moved` and `gone` write, move and remove a file. An operation that may be done gives
that view (`publish_view`, `rename_view`, `remove_view`, `mkdirAll_view`); any operation at all changes the view
at its own paths only, directories apart (`mkdirAll_grows`).
-/

namespace FileTree
variable {β : Type}

abbrev View (β : Type) := Path → Option (Entry β)

namespace View

/-- The view with every directory on the path made. -/
def made (V : View β) (p : Path) : View β := fun q => if V q = none ∧ q <+: p then some (.dir true) else V q

def put (V : View β) (p : Path) (bytes : β) (mode : Nat) : View β := fun q =>
  if q = p then some (.file bytes mode) else V q

def gone (V : View β) (p : Path) : View β := fun q => if q = p then none else V q

def moved (V : View β) (src dst : Path) : View β := fun q =>
  if q = src then none else if q = dst then V src else V q

/-- Nothing or a directory at each proper prefix. -/
def Clear (V : View β) (p : Path) : Prop := ∀ q, q <+: p → q ≠ p → V q = none ∨ Entry.isDir (V q) = true

/-- Every directory can be edited. -/
def Open (V : View β) : Prop := ∀ p w, V p = some (.dir w) → w = true

@[simp] theorem put_self (V : View β) (p : Path) (bytes : β) (mode : Nat) :
    V.put p bytes mode p = some (.file bytes mode) := if_pos rfl

theorem put_of_ne (V : View β) {p q : Path} (bytes : β) (mode : Nat) (h : q ≠ p) : V.put p bytes mode q = V q :=
  if_neg h

@[simp] theorem gone_self (V : View β) (p : Path) : V.gone p p = none := if_pos rfl

theorem gone_of_ne (V : View β) {p q : Path} (h : q ≠ p) : V.gone p q = V q := if_neg h

@[simp] theorem moved_src (V : View β) (src dst : Path) : V.moved src dst src = none := if_pos rfl

theorem moved_dst (V : View β) {src dst : Path} (h : src ≠ dst) : V.moved src dst dst = V src := by
  rw [moved, if_neg (Ne.symm h), if_pos rfl]

theorem moved_of_ne (V : View β) {src dst q : Path} (hs : q ≠ src) (hd : q ≠ dst) : V.moved src dst q = V q := by
  rw [moved, if_neg hs, if_neg hd]

theorem made_of_some {V : View β} {p q : Path} (h : V q ≠ none) : V.made p q = V q := if_neg fun hn => h hn.1

theorem made_of_not_prefix {V : View β} {p q : Path} (h : ¬ q <+: p) : V.made p q = V q := if_neg fun hn => h hn.2

end View

namespace Files
variable {t t' : Files β} {p q : Path} {pl src dst : Place} {bytes : β} {mode : Nat}

/-! ## Prefixes -/

theorem look_root (t : Files β) : Entry.isDir (t.look []) = true := by
  rw [isDir_look]
  exact t.root

theorem look_parent {name : String} (h : t.look (p ++ [name]) ≠ none) :
    Entry.isDir (t.look p) = true := by
  rw [isDir_look]
  exact t.parent p name fun hn => h (look_eq_none.2 hn)

/-- What is there stands in directories. -/
theorem look_above (h : t.look p ≠ none) (hq : q <+: p) (hne : q ≠ p) :
    Entry.isDir (t.look q) = true := by
  obtain ⟨rest, rfl⟩ := hq
  induction rest using List.reverseRecOn with
  | nil => simp at hne
  | append_singleton rest name ih =>
    rw [← List.append_assoc] at h
    have hdir := look_parent h
    by_cases hnil : rest = []
    · simpa [hnil] using hdir
    · refine ih ?_ (by simpa using hnil)
      intro hn
      rw [hn] at hdir
      cases hdir

theorem canEdit_of_open (hopen : View.Open t.look) (h : Entry.isDir (t.look p) = true) :
    t.canEdit p = true := by
  unfold canEdit
  cases hp : t.look p with
  | none => simp [hp, Entry.isDir] at h
  | some e =>
    cases e with
    | dir w => exact hopen p w hp
    | file b m => simp [hp, Entry.isDir] at h
    | link v => simp [hp, Entry.isDir] at h

theorem isDir_of_canEdit' (h : t.canEdit p = true) : Entry.isDir (t.look p) = true := by
  rw [isDir_look]
  exact isDir_of_canEdit h

/-! ## Directories -/

/-- Directories are made where nothing was, on the path, and nothing else is changed. -/
theorem mkdirAll_grows (t : Files β) (done : Path) (names : List String) (q : Path) :
    (t.mkdirAll done names).1.look q = t.look q ∨
      (t.look q = none ∧ (t.mkdirAll done names).1.look q = some (.dir true) ∧ q <+: done ++ names) := by
  induction names generalizing t done with
  | nil => exact .inl rfl
  | cons name rest ih =>
    have hassoc : done ++ name :: rest = done ++ [name] ++ rest := by simp
    rw [mkdirAll, hassoc]
    by_cases hdir : Node.isDir (t.node (done ++ [name])) = true
    · rw [if_pos hdir]
      exact ih t (done ++ [name])
    · rw [if_neg hdir]
      by_cases h : t.canEdit done = true ∧ t.node (done ++ [name]) = none
      · rw [dif_pos h]
        rcases ih (t.mkdir (done ++ [name]) (by rw [List.dropLast_concat]; exact isDir_of_canEdit h.1) h.2)
          (done ++ [name]) with hq | ⟨hq, hmade, hle⟩
        · rw [hq, look_mkdir]
          by_cases hqp : q = done ++ [name]
          · rw [if_pos hqp]
            refine .inr ⟨?_, rfl, ?_⟩
            · rw [hqp, look_eq_none]
              exact h.2
            · rw [hqp]
              exact List.prefix_append _ _
          · rw [if_neg hqp]
            exact .inl rfl
        · rw [look_mkdir] at hq
          by_cases hqp : q = done ++ [name]
          · rw [if_pos hqp] at hq
            cases hq
          · rw [if_neg hqp] at hq
            exact .inr ⟨hq, hmade, hle⟩
      · rw [dif_neg h]
        exact .inl rfl

/-- When all could be made, each prefix is a directory. -/
theorem mkdirAll_dirs {done : Path} {names : List String} (hok : (t.mkdirAll done names).2 = true)
    (hdone : Entry.isDir (t.look done) = true) (hq : q <+: done ++ names) :
    Entry.isDir ((t.mkdirAll done names).1.look q) = true := by
  induction names generalizing t done with
  | nil =>
    rw [List.append_nil] at hq
    rw [mkdirAll]
    by_cases hqd : q = done
    · rw [hqd]
      exact hdone
    · refine look_above (p := done) ?_ hq hqd
      intro hn
      rw [hn] at hdone
      cases hdone
  | cons name rest ih =>
    have hassoc : done ++ name :: rest = done ++ [name] ++ rest := by simp
    rw [hassoc] at hq
    rw [mkdirAll] at hok ⊢
    by_cases hdir : Node.isDir (t.node (done ++ [name])) = true
    · rw [if_pos hdir] at hok ⊢
      exact ih hok (by rw [isDir_look]; exact hdir) hq
    · rw [if_neg hdir] at hok ⊢
      by_cases h : t.canEdit done = true ∧ t.node (done ++ [name]) = none
      · rw [dif_pos h] at hok ⊢
        refine ih hok ?_ hq
        rw [look_mkdir, if_pos rfl]
        rfl
      · rw [dif_neg h] at hok
        cases hok

theorem mkdirAll_view (hok : (t.mkdirAll [] p).2 = true) :
    (t.mkdirAll [] p).1.look = View.made t.look p := by
  funext q
  by_cases hq : t.look q = none ∧ q <+: p
  · have hdir := mkdirAll_dirs hok t.look_root hq.2
    rw [View.made, if_pos hq]
    rcases mkdirAll_grows t [] p q with h | ⟨-, h, -⟩
    · rw [h, hq.1] at hdir
      cases hdir
    · exact h
  · rw [View.made, if_neg hq]
    rcases mkdirAll_grows t [] p q with h | ⟨hn, -, hle⟩
    · exact h
    · exact absurd ⟨hn, hle⟩ hq

theorem mkdirAll_ok {done : Path} {names : List String} (hopen : View.Open t.look)
    (hdone : Entry.isDir (t.look done) = true)
    (hclear : ∀ q, done <+: q → q <+: done ++ names → t.look q = none ∨ Entry.isDir (t.look q) = true) :
    (t.mkdirAll done names).2 = true := by
  induction names generalizing t done with
  | nil => rfl
  | cons name rest ih =>
    have hassoc : done ++ name :: rest = done ++ [name] ++ rest := by simp
    rw [hassoc] at hclear
    have hnext : done <+: done ++ [name] := List.prefix_append _ _
    rw [mkdirAll]
    by_cases hdir : Node.isDir (t.node (done ++ [name])) = true
    · rw [if_pos hdir]
      exact ih hopen (by rw [isDir_look]; exact hdir) fun q hle hq => hclear q (hnext.trans hle) hq
    · have hnone : t.node (done ++ [name]) = none := by
        rcases hclear _ hnext (List.prefix_append _ _) with h | h
        · exact look_eq_none.1 h
        · rw [isDir_look] at h
          exact absurd h hdir
      have hedit : t.canEdit done = true := canEdit_of_open hopen hdone
      rw [if_neg hdir, dif_pos ⟨hedit, hnone⟩]
      refine ih ?_ ?_ ?_
      · intro q w hq
        rw [look_mkdir] at hq
        by_cases hqp : q = done ++ [name]
        · rw [if_pos hqp] at hq
          cases hq
          rfl
        · rw [if_neg hqp] at hq
          exact hopen q w hq
      · rw [look_mkdir, if_pos rfl]
        rfl
      · intro q hle hq
        rw [look_mkdir]
        by_cases hqp : q = done ++ [name]
        · rw [if_pos hqp]
          exact .inr rfl
        · rw [if_neg hqp]
          exact hclear q (hnext.trans hle) hq

/-! ## Files -/

theorem publish_view (bytes : β) (mode : Nat) (hslash : pl.slash = false) (hne : pl.names ≠ [])
    (hedit : t.canEdit pl.names.dropLast = true) (hfree : Entry.isDir (t.look pl.names) = false) :
    ∃ t', t.publish pl bytes mode = .ok t' ∧ t'.look = View.put t.look pl.names bytes mode := by
  have hslot : Slot t pl.names := ⟨hne, isDir_of_canEdit hedit, by rwa [← isDir_look]⟩
  refine ⟨t.create pl.names bytes mode hslot, ?_, ?_⟩
  · simp [publish, hedit, hslash, hslot]
  · funext q
    rw [look_create]
    rfl

/-- What is published is seen, whatever else holds. -/
theorem publish_ok (h : t.publish pl bytes mode = .ok t') :
    t'.look = View.put t.look pl.names bytes mode ∧ pl.slash = false ∧ Entry.isDir (t.look pl.names) = false ∧
      Entry.isDir (t.look pl.names.dropLast) = true := by
  unfold publish at h
  by_cases hedit : t.canEdit pl.names.dropLast = true
  · rw [if_neg (by simp [hedit])] at h
    by_cases hslash : pl.slash = true
    · rw [if_pos hslash] at h
      cases h
    · rw [if_neg hslash] at h
      by_cases hslot : Slot t pl.names
      · rw [dif_pos hslot] at h
        cases h
        refine ⟨?_, by simpa using hslash, by rw [isDir_look]; exact hslot.free, isDir_of_canEdit' hedit⟩
        funext q
        rw [look_create]
        rfl
      · rw [dif_neg hslot] at h
        cases h
  · rw [if_pos (by simpa using hedit)] at h
    cases h

theorem rename_view (hsrc : src.slash = false) (hdst : dst.slash = false) (hne : dst.names ≠ [])
    (hedit : t.canEdit src.names.dropLast = true) (hedit' : t.canEdit dst.names.dropLast = true)
    (hthere : t.look src.names ≠ none) (hfile : Entry.isDir (t.look src.names) = false)
    (hfree : t.look dst.names = none) :
    ∃ t', t.rename src dst = .ok t' ∧ t'.look = View.moved t.look src.names dst.names := by
  have hnode : t.node src.names ≠ none := fun h => hthere (look_eq_none.2 h)
  obtain ⟨n, hn⟩ := Option.ne_none_iff_exists'.1 hnode
  have hdstnode : t.node dst.names = none := look_eq_none.1 hfree
  have hnames : src.names ≠ dst.names := by
    intro h
    rw [h] at hthere
    exact hthere hfree
  have hslot : Slot t dst.names := ⟨hne, isDir_of_canEdit hedit', by rw [hdstnode]; rfl⟩
  have hndir : Node.isDir (some n) = false := by
    rw [isDir_look, hn] at hfile
    exact hfile
  have hsame : ¬ (src.names = dst.names ∨ sameInode (t.node src.names) (t.node dst.names) = true) := by
    rintro (h | h)
    · exact hnames h
    · rw [hdstnode, hn] at h
      cases n <;> cases h
  refine ⟨(t.put dst.names n hslot hndir fun i hi => t.old src.names i (hi ▸ hn)).unlink src.names ?_, ?_, ?_⟩
  · simp only [Files.put, if_neg hnames, hn]
    exact hndir
  · unfold rename
    rw [if_neg (by simp [hsrc, hdst])]
    split
    · rename_i hs
      rw [hn] at hs
      cases hs
    · rename_i m hs
      have hm : m = n := Option.some.inj (hs.symm.trans hn)
      subst hm
      rw [dif_neg (by simp [hndir]), if_neg (by simp [hedit, hedit']), dif_neg hsame, dif_pos hslot]
  · funext q
    rw [look_unlink, look_put t hslot hndir _ hn]
    rfl

theorem remove_view (hslash : pl.slash = false) (hedit : t.canEdit pl.names.dropLast = true)
    (hthere : t.look pl.names ≠ none) (hfile : Entry.isDir (t.look pl.names) = false) :
    ∃ t', t.remove pl = .ok t' ∧ t'.look = View.gone t.look pl.names := by
  have hdir : Node.isDir (t.node pl.names) = false := by rwa [← isDir_look]
  obtain ⟨n, hn⟩ := Option.ne_none_iff_exists'.1 fun h => hthere (look_eq_none.2 h)
  refine ⟨t.unlink pl.names hdir, ?_, ?_⟩
  · simp only [remove, hslash, Bool.false_eq_true, if_false, hn, hedit, Bool.not_true]
    simp [← hn, hdir]
  · funext q
    rw [look_unlink]
    rfl

/-- A rename that succeeds changes what is seen at its two paths only. -/
theorem rename_ok (h : t.rename src dst = .ok t') :
    src.slash = false ∧ dst.slash = false ∧ ∀ q, t'.look q = t.look q ∨
      ((q = src.names ∨ q = dst.names) ∧ Entry.isDir (t'.look q) = false) := by
  unfold rename at h
  by_cases hslash : (src.slash || dst.slash) = true
  · rw [if_pos hslash] at h
    cases h
  · rw [if_neg hslash] at h
    simp only [Bool.or_eq_true, not_or, Bool.not_eq_true] at hslash
    refine ⟨hslash.1, hslash.2, fun q => ?_⟩
    split at h
    · cases h
    · rename_i n hn
      by_cases hdir : Node.isDir (some n) = true
      · rw [dif_pos hdir] at h
        cases h
      · rw [dif_neg hdir] at h
        split at h
        · cases h
        · split at h
          · cases h
            exact .inl rfl
          · split at h
            · rename_i hslot
              cases h
              have hfile : Node.isDir (some n) = false := by simpa using hdir
              rw [look_unlink, look_put t hslot hfile _ hn]
              by_cases hqs : q = src.names
              · rw [if_pos hqs]
                exact .inr ⟨.inl hqs, rfl⟩
              · rw [if_neg hqs]
                by_cases hqd : q = dst.names
                · rw [if_pos hqd, isDir_look, hn]
                  exact .inr ⟨.inr hqd, hfile⟩
                · rw [if_neg hqd]
                  exact .inl rfl
            · cases h

theorem remove_ok (h : t.remove pl = .ok t') :
    pl.slash = false ∧ t'.look = View.gone t.look pl.names := by
  unfold remove at h
  by_cases hslash : pl.slash = true
  · rw [if_pos hslash] at h
    cases h
  · rw [if_neg hslash] at h
    refine ⟨by simpa using hslash, ?_⟩
    split at h
    · cases h
    · by_cases hdir : Node.isDir (t.node pl.names) = true
      · rw [dif_pos hdir] at h
        cases h
      · rw [dif_neg hdir] at h
        split at h
        · cases h
        · cases h
          funext q
          rw [look_unlink]
          rfl

end Files

end FileTree
