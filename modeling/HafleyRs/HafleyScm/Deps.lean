import HafleyRs.Lib.BTree
import HafleyRs.Lib.DotSegments

/-!
# Module specifiers (`crates/hafley_scm/src/read/deps.rs`)

| here | there |
| --- | --- |
| `Policy`, `candidateExts`, `emittedRewrites` | the enum and the tables (60–100) |
| `TsconfigPaths`, `rewrite`, `matchPattern` | `TsconfigPaths` (128–208) |
| `resolveSpecifier`, `probe` | 288–345; the ladder of `probe` is `candidates`, in its order |
| `joinRelative`, `normalize` | 352–373: `segments.pop()` and `push` are `DotSegments.step` |

`lexical` is the path a relative specifier names, and `Names` says which files that path stands for. The resolver finds
one of them whenever there is one, with two exceptions, and finds no other (`resolves_iff`). A `..` above the root is
dropped, not refused, so such a specifier finds what the rest of it names from the root. And the index file of the root
is looked up as `/index.ts`, a text no project-relative path has.
-/

namespace HafleyScm.Deps
open DotSegments

abbrev Text := List Char

inductive Policy
  | relativeExact
  | relativeEmittedRewrite
  | relativeExtensionInferred
  | relativeIndexFile
  | tsconfigPaths
  | tsconfigBaseUrl
  | nodeModulesBoundary
  | absolutePath
  | relativeUnresolved
deriving DecidableEq, Repr

def candidateExts : List Text :=
  [".ts", ".tsx", ".d.ts", ".mts", ".cts", ".js", ".jsx", ".mjs", ".cjs"].map String.toList

def emittedRewrites : List (Text × List Text) :=
  [(".js", [".ts", ".tsx", ".d.ts"]), (".mjs", [".mts"]), (".cjs", [".cts"]), (".jsx", [".tsx"])].map fun e =>
    (e.1.toList, e.2.map String.toList)

/-! ## Text -/

def stripPrefix? (front text : Text) : Option Text := if front <+: text then some (text.drop front.length) else none

def stripSuffix? (back text : Text) : Option Text :=
  if back <:+ text then some (text.take (text.length - back.length)) else none

/-- `split_once`: before and behind the first one. -/
def splitOnce (c : Char) (text : Text) : Option (Text × Text) :=
  if c ∈ text then some (text.takeWhile (· ≠ c), (text.dropWhile (· ≠ c)).tail) else none

/-- `replacen(c, with, 1)` -/
def replaceFirst (c : Char) (new text : Text) : Text :=
  match splitOnce c text with
  | none => text
  | some (front, back) => front ++ new ++ back

theorem stripSuffix?_eq_some {back text stem : Text} : stripSuffix? back text = some stem ↔ text = stem ++ back := by
  unfold stripSuffix?
  split
  · rename_i h
    obtain ⟨front, rfl⟩ := h
    simp [eq_comm]
  · rename_i h
    simp only [reduceCtorEq, false_iff]
    rintro rfl
    exact h (List.suffix_append _ _)

/-! ## Paths -/

def normalize (path : Text) : Text := joined (walk [] (read path))

def joinRelative (directory specifier : Text) : Text :=
  normalize (if directory = [] then specifier else directory ++ '/' :: specifier)

/-- `rsplit_once('/')`, `""` without a slash. -/
def directoryOf (path : Text) : Text := Slashed.parent '/' path

/-! ## tsconfig -/

structure TsconfigPaths where
  baseUrl : Option Text
  paths   : BTreeMap Text (List Text)

def matchPattern (pattern specifier : Text) : Option Text :=
  match splitOnce '*' pattern with
  | none => if pattern = specifier then some [] else none
  | some (front, back) => (stripPrefix? front specifier).bind (stripSuffix? back)

def TsconfigPaths.rewrite (tsconfig : TsconfigPaths) (specifier : Text) : List (Text × Policy) :=
  let base := tsconfig.baseUrl.getD []
  let out := tsconfig.paths.toList.flatMap fun entry =>
    match matchPattern entry.1 specifier with
    | none => []
    | some captured => entry.2.map fun replacement =>
      (joinRelative base (replaceFirst '*' captured replacement), Policy.tsconfigPaths)
  if out.isEmpty && tsconfig.baseUrl.isSome then [(joinRelative base specifier, .tsconfigBaseUrl)] else out

/-! ## The resolver -/

def indexName : Text := "index".toList

/-- What `probe` looks up, in order. -/
def candidates (path : Text) : List (Text × Policy) :=
  (path, .relativeExact) ::
    ((emittedRewrites.flatMap fun e =>
        match stripSuffix? e.1 path with
        | none => []
        | some stem => e.2.map fun source => (stem ++ source, Policy.relativeEmittedRewrite)) ++
      candidateExts.map (fun ext => (path ++ ext, Policy.relativeExtensionInferred)) ++
      candidateExts.map (fun ext => (path ++ '/' :: (indexName ++ ext), Policy.relativeIndexFile)))

def probe (path : Text) (files : BTreeSet Text) : Option (Text × Policy) :=
  (candidates path).find? fun candidate => files.contains candidate.1

def resolveSpecifier (fromPath specifier : Text) (files : BTreeSet Text) (tsconfig : TsconfigPaths) :
    Option Text × Policy :=
  if specifier.head? = some '/' then (none, .absolutePath)
  else if specifier.head? ≠ some '.' then
    match (tsconfig.rewrite specifier).findSome? fun c => (probe c.1 files).map fun hit => (hit.1, c.2) with
    | some (hit, policy) => (some hit, policy)
    | none => (none, .nodeModulesBoundary)
  else
    match probe (joinRelative (directoryOf fromPath) specifier) files with
    | some (hit, policy) => (some hit, policy)
    | none => (none, .relativeUnresolved)

/-! ## What a specifier names -/

/-- The path of a relative specifier, none once it leaves the root. -/
def lexical (fromPath specifier : Text) : Option (List Text) :=
  climb [] (read (directoryOf fromPath) ++ read specifier)

/-- The files a path stands for: itself, the source of an emitted file, the file with an extension, its index file. -/
inductive Names (path : List Text) : Text → Prop
  | exact : Names path (joined path)
  | emitted {stem source : Text} {e : Text × List Text} (he : e ∈ emittedRewrites) (hpath : joined path = stem ++ e.1)
      (hsource : source ∈ e.2) : Names path (stem ++ source)
  | inferred {ext : Text} (hext : ext ∈ candidateExts) : Names path (joined path ++ ext)
  | index {ext : Text} (hext : ext ∈ candidateExts) : Names path (joined (path ++ [indexName ++ ext]))

/-- A hit is a file that the specifier names, and there is a hit when there is such a file. -/
def Resolves (fromPath specifier : Text) (files : BTreeSet Text) (tsconfig : TsconfigPaths) : Prop :=
  (∀ hit, (resolveSpecifier fromPath specifier files tsconfig).1 = some hit →
    hit ∈ files ∧ ∃ path, lexical fromPath specifier = some path ∧ Names path hit) ∧
  ∀ path, lexical fromPath specifier = some path → (∃ file ∈ files, Names path file) →
    (resolveSpecifier fromPath specifier files tsconfig).1.isSome

/-! ## The ladder -/

/-- The texts of the ladder, by the rule that puts them there. -/
theorem mem_candidates {path file : Text} : (∃ policy, (file, policy) ∈ candidates path) ↔
    file = path ∨ (∃ e ∈ emittedRewrites, ∃ stem, path = stem ++ e.1 ∧ ∃ source ∈ e.2, file = stem ++ source) ∨
      (∃ ext ∈ candidateExts, file = path ++ ext) ∨ ∃ ext ∈ candidateExts, file = path ++ '/' :: (indexName ++ ext) := by
  constructor
  · rintro ⟨policy, h⟩
    rw [candidates, List.mem_cons, List.mem_append, List.mem_append, List.mem_flatMap] at h
    rcases h with h | (⟨e, he, h⟩ | h) | h
    · exact .inl (congrArg Prod.fst h)
    · split at h
      · cases h
      · rename_i stem hstem
        obtain ⟨source, hsource, heq⟩ := List.mem_map.1 h
        exact .inr (.inl ⟨e, he, stem, stripSuffix?_eq_some.1 hstem, source, hsource, (congrArg Prod.fst heq).symm⟩)
    · obtain ⟨ext, hext, heq⟩ := List.mem_map.1 h
      exact .inr (.inr (.inl ⟨ext, hext, (congrArg Prod.fst heq).symm⟩))
    · obtain ⟨ext, hext, heq⟩ := List.mem_map.1 h
      exact .inr (.inr (.inr ⟨ext, hext, (congrArg Prod.fst heq).symm⟩))
  · rintro (rfl | ⟨e, he, stem, hpath, source, hsource, rfl⟩ | ⟨ext, hext, rfl⟩ | ⟨ext, hext, rfl⟩)
    · exact ⟨_, List.mem_cons_self⟩
    · refine ⟨.relativeEmittedRewrite, List.mem_cons_of_mem _ (List.mem_append_left _ (List.mem_append_left _ ?_))⟩
      refine List.mem_flatMap.2 ⟨e, he, ?_⟩
      rw [stripSuffix?_eq_some.2 hpath]
      exact List.mem_map_of_mem hsource
    · exact ⟨_, List.mem_cons_of_mem _ (List.mem_append_left _ (List.mem_append_right _ (List.mem_map_of_mem hext)))⟩
    · exact ⟨_, List.mem_cons_of_mem _ (List.mem_append_right _ (List.mem_map_of_mem hext))⟩

/-- Below the root the ladder holds the files that the path stands for. -/
theorem mem_candidates_joined {path : List Text} {file : Text} (h : path ≠ []) :
    (∃ policy, (file, policy) ∈ candidates (joined path)) ↔ Names path file := by
  rw [mem_candidates]
  constructor
  · rintro (rfl | ⟨e, he, stem, hpath, source, hsource, rfl⟩ | ⟨ext, hext, rfl⟩ | ⟨ext, hext, rfl⟩)
    · exact .exact
    · exact .emitted he hpath hsource
    · exact .inferred hext
    · rw [← joined_concat h]
      exact .index hext
  · intro hnames
    cases hnames with
    | exact => exact .inl rfl
    | emitted he hpath hsource => exact .inr (.inl ⟨_, he, _, hpath, _, hsource, rfl⟩)
    | inferred hext => exact .inr (.inr (.inl ⟨_, hext, rfl⟩))
    | index hext => exact .inr (.inr (.inr ⟨_, hext, joined_concat h _⟩))

theorem stem_ne_root : ∀ e ∈ emittedRewrites, ∀ stem : Text, [] ≠ stem ++ e.1 := by
  have hne : ∀ e ∈ emittedRewrites, e.1 ≠ [] := by decide
  intro e he stem heq
  exact hne e he (List.append_eq_nil_iff.1 heq.symm).2

theorem mem_candidates_root {file : Text} : (∃ policy, (file, policy) ∈ candidates []) ↔
    file = [] ∨ file ∈ candidateExts ∨ ∃ ext ∈ candidateExts, file = '/' :: (indexName ++ ext) := by
  rw [mem_candidates]
  constructor
  · rintro (rfl | ⟨e, he, stem, hpath, -⟩ | ⟨ext, hext, rfl⟩ | h)
    · exact .inl rfl
    · exact absurd hpath (stem_ne_root e he stem)
    · exact .inr (.inl hext)
    · exact .inr (.inr h)
  · rintro (rfl | hext | h)
    · exact .inl rfl
    · exact .inr (.inr (.inl ⟨file, hext, rfl⟩))
    · exact .inr (.inr (.inr h))

theorem names_root {file : Text} : Names [] file ↔
    file = [] ∨ file ∈ candidateExts ∨ ∃ ext ∈ candidateExts, file = indexName ++ ext := by
  constructor
  · intro hnames
    cases hnames with
    | exact => exact .inl rfl
    | emitted he hpath => exact absurd hpath (stem_ne_root _ he _)
    | inferred hext => exact .inr (.inl hext)
    | index hext => exact .inr (.inr ⟨_, hext, by simp [joined]⟩)
  · rintro (rfl | hext | ⟨ext, hext, rfl⟩)
    · exact .exact
    · exact @Names.inferred [] file hext
    · have hindex := @Names.index [] ext hext
      simpa [joined] using hindex

/-! ## The resolver on relative specifiers -/

section
variable {fromPath rest path : Text} {files : BTreeSet Text} {tsconfig : TsconfigPaths}

theorem probe_isSome : (probe path files).isSome ↔ ∃ file ∈ files, ∃ policy, (file, policy) ∈ candidates path := by
  rw [probe, List.find?_isSome]
  constructor
  · rintro ⟨c, hc, hin⟩
    exact ⟨c.1, Std.ExtTreeSet.contains_iff_mem.1 hin, c.2, hc⟩
  · rintro ⟨file, hin, policy, hc⟩
    exact ⟨_, hc, Std.ExtTreeSet.contains_iff_mem.2 hin⟩

theorem probe_eq_some {hit : Text × Policy} (h : probe path files = some hit) :
    hit.1 ∈ files ∧ ∃ policy, (hit.1, policy) ∈ candidates path := by
  have hin : files.contains hit.1 = true := @List.find?_some (Text × Policy) (fun c => files.contains c.1) _ _ h
  exact ⟨Std.ExtTreeSet.contains_iff_mem.1 hin, hit.2, List.mem_of_find?_eq_some h⟩

theorem joinRelative_eq (directory specifier : Text) :
    joinRelative directory specifier = joined (walk [] (read directory ++ read specifier)) := by
  unfold joinRelative
  split
  · rename_i h
    rw [h]
    rfl
  · rw [normalize, read_append]

theorem resolveSpecifier_relative : (resolveSpecifier fromPath ('.' :: rest) files tsconfig).1 =
    (probe (joinRelative (directoryOf fromPath) ('.' :: rest)) files).map Prod.fst := by
  rw [resolveSpecifier, if_neg (by simp), if_neg (by simp)]
  split
  · rename_i h
    rw [h]
    rfl
  · rename_i h
    rw [h]
    rfl

end

/-- What is left of a specifier that leaves the root: the path its other steps name from there. -/
def clamped (fromPath specifier : Text) : Text := joined (walk [] (read (directoryOf fromPath) ++ read specifier))

/-- No file is found that is not named, nor missed that is: outside, nothing of the clamped path is there; at the root,
something else than an index file is there, or no index file. -/
def Kept (fromPath specifier : Text) (files : BTreeSet Text) : Prop :=
  match lexical fromPath specifier with
  | none         => ∀ file ∈ files, ∀ policy, (file, policy) ∉ candidates (clamped fromPath specifier)
  | some []      =>
    [] ∈ files ∨ (∃ ext ∈ candidateExts, ext ∈ files) ∨
      ∀ ext ∈ candidateExts, indexName ++ ext ∉ files ∧ '/' :: (indexName ++ ext) ∉ files
  | some (_ :: _) => True

section
variable {fromPath rest : Text} {files : BTreeSet Text} {tsconfig : TsconfigPaths}

theorem resolved_eq_some {hit : Text} (h : (resolveSpecifier fromPath ('.' :: rest) files tsconfig).1 = some hit) :
    hit ∈ files ∧ ∃ policy, (hit, policy) ∈ candidates (clamped fromPath ('.' :: rest)) := by
  rw [resolveSpecifier_relative, joinRelative_eq] at h
  obtain ⟨found, hfound, rfl⟩ := Option.map_eq_some_iff.1 h
  exact probe_eq_some hfound

theorem resolved_isSome : (resolveSpecifier fromPath ('.' :: rest) files tsconfig).1.isSome ↔
    ∃ file ∈ files, ∃ policy, (file, policy) ∈ candidates (clamped fromPath ('.' :: rest)) := by
  rw [resolveSpecifier_relative, joinRelative_eq, Option.isSome_map, probe_isSome]
  rfl

theorem clamped_of_lexical {path : List Text} (h : lexical fromPath rest = some path) :
    clamped fromPath rest = joined path := by
  rw [clamped, walk_of_climb h]

/-- Below the root nothing goes wrong. -/
theorem resolves_below {name : Text} {names : List Text}
    (h : lexical fromPath ('.' :: rest) = some (name :: names)) : Resolves fromPath ('.' :: rest) files tsconfig := by
  have hladder : ∀ file, (∃ policy, (file, policy) ∈ candidates (clamped fromPath ('.' :: rest))) ↔
      Names (name :: names) file := fun file => by
    rw [clamped_of_lexical h]
    exact mem_candidates_joined (List.cons_ne_nil _ _)
  constructor
  · intro hit hhit
    obtain ⟨hin, hmem⟩ := resolved_eq_some hhit
    exact ⟨hin, _, h, (hladder hit).1 hmem⟩
  · intro path hpath hfile
    obtain rfl := Option.some.inj (h.symm.trans hpath)
    obtain ⟨file, hin, hnames⟩ := hfile
    exact resolved_isSome.2 ⟨file, hin, (hladder file).2 hnames⟩

theorem candidates_root : candidates [] =
    (([], .relativeExact) :: candidateExts.map fun ext => (ext, Policy.relativeExtensionInferred)) ++
      candidateExts.map fun ext => ('/' :: (indexName ++ ext), Policy.relativeIndexFile) := by
  decide

/-- At the root the index files come last. -/
theorem root_hit_first {hit : Text} (h : clamped fromPath ('.' :: rest) = [])
    (hfirst : [] ∈ files ∨ ∃ ext ∈ candidateExts, ext ∈ files)
    (hhit : (resolveSpecifier fromPath ('.' :: rest) files tsconfig).1 = some hit) :
    hit = [] ∨ hit ∈ candidateExts := by
  rw [resolveSpecifier_relative, joinRelative_eq, ← clamped, h, probe, candidates_root, List.find?_append] at hhit
  obtain ⟨found, hfound, rfl⟩ := Option.map_eq_some_iff.1 hhit
  have hsome : ((([], Policy.relativeExact) ::
      candidateExts.map fun ext => (ext, Policy.relativeExtensionInferred)).find? fun c => files.contains c.1).isSome := by
    rw [List.find?_isSome]
    rcases hfirst with hin | ⟨ext, hext, hin⟩
    · exact ⟨_, List.mem_cons_self, Std.ExtTreeSet.contains_iff_mem.2 hin⟩
    · exact ⟨_, List.mem_cons_of_mem _ (List.mem_map_of_mem hext), Std.ExtTreeSet.contains_iff_mem.2 hin⟩
  rw [Option.or_of_isSome hsome] at hfound
  rcases List.mem_cons.1 (List.mem_of_find?_eq_some hfound) with rfl | hmem
  · exact .inl rfl
  · obtain ⟨ext, hext, rfl⟩ := List.mem_map.1 hmem
    exact .inr hext

/-- What is looked up and named at the root is no index file. -/
theorem root_of_both {file : Text} (hnames : Names [] file) (hladder : ∃ policy, (file, policy) ∈ candidates []) :
    file = [] ∨ file ∈ candidateExts := by
  have hexts : ∀ ext ∈ candidateExts, ext.head? = some '.' := by decide
  rw [names_root] at hnames
  rw [mem_candidates_root] at hladder
  rcases hladder with h | h | ⟨ext, -, rfl⟩
  · exact .inl h
  · exact .inr h
  · rcases hnames with h | h | ⟨ext', -, h⟩
    · cases h
    · exact absurd (hexts _ h) (by simp)
    · exact absurd (congrArg List.head? h) (by simp [indexName])

theorem resolves_root (h : lexical fromPath ('.' :: rest) = some []) :
    Resolves fromPath ('.' :: rest) files tsconfig ↔ [] ∈ files ∨ (∃ ext ∈ candidateExts, ext ∈ files) ∨
      ∀ ext ∈ candidateExts, indexName ++ ext ∉ files ∧ '/' :: (indexName ++ ext) ∉ files := by
  have hclamped : clamped fromPath ('.' :: rest) = [] := clamped_of_lexical h
  constructor
  · intro hright
    rw [← or_assoc]
    refine or_iff_not_imp_left.2 fun hnone => ?_
    -- a hit is an exact one or has an extension, and there is none of these
    have hmiss : ¬ (resolveSpecifier fromPath ('.' :: rest) files tsconfig).1.isSome := fun hsome => by
      obtain ⟨hit, hhit⟩ := Option.isSome_iff_exists.1 hsome
      obtain ⟨hin, path, hpath, hnames⟩ := hright.1 hit hhit
      obtain rfl := Option.some.inj (h.symm.trans hpath)
      have hladder := (resolved_eq_some hhit).2
      rw [hclamped] at hladder
      rcases root_of_both hnames hladder with rfl | hext
      · exact hnone (.inl hin)
      · exact hnone (.inr ⟨hit, hext, hin⟩)
    intro ext hext
    constructor
    · exact fun hin => hmiss (hright.2 [] h ⟨_, hin, names_root.2 (.inr (.inr ⟨ext, hext, rfl⟩))⟩)
    · refine fun hin => hmiss (resolved_isSome.2 ⟨_, hin, ?_⟩)
      rw [hclamped, mem_candidates_root]
      exact .inr (.inr ⟨ext, hext, rfl⟩)
  · intro hkept
    constructor
    · intro hit hhit
      obtain ⟨hin, hladder⟩ := resolved_eq_some hhit
      refine ⟨hin, [], h, names_root.2 ?_⟩
      rw [← or_assoc] at hkept
      rcases hkept with hfirst | hindex
      · exact or_assoc.1 (.inl (root_hit_first hclamped hfirst hhit))
      · rw [hclamped, mem_candidates_root] at hladder
        rcases hladder with hroot | hroot | ⟨ext, hext, rfl⟩
        · exact .inl hroot
        · exact .inr (.inl hroot)
        · exact absurd hin (hindex ext hext).2
    · rintro path hpath ⟨file, hin, hnames⟩
      obtain rfl := Option.some.inj (h.symm.trans hpath)
      rw [resolved_isSome, hclamped]
      rcases hkept with hfirst | ⟨ext, hext, hfirst⟩ | hindex
      · exact ⟨_, hfirst, mem_candidates_root.2 (.inl rfl)⟩
      · exact ⟨_, hfirst, mem_candidates_root.2 (.inr (.inl hext))⟩
      · refine ⟨file, hin, mem_candidates_root.2 ?_⟩
        rcases names_root.1 hnames with hroot | hroot | ⟨ext, hext, rfl⟩
        · exact .inl hroot
        · exact .inr (.inl hroot)
        · exact absurd hin (hindex ext hext).1

end

section
variable (fromPath rest : Text) (files : BTreeSet Text) (tsconfig : TsconfigPaths)

/-- **A relative specifier resolves to the file it names** exactly as long as it is kept. -/
theorem resolves_iff : Resolves fromPath ('.' :: rest) files tsconfig ↔ Kept fromPath ('.' :: rest) files := by
  unfold Kept
  split
  · rename_i hlex
    constructor
    · intro h file hin policy hmem
      obtain ⟨hit, hhit⟩ := Option.isSome_iff_exists.1 (resolved_isSome.2 ⟨file, hin, policy, hmem⟩)
      obtain ⟨-, path, hpath, -⟩ := h.1 hit hhit
      exact absurd (hlex.symm.trans hpath) (by simp)
    · intro h
      constructor
      · intro hit hhit
        obtain ⟨hin, policy, hmem⟩ := resolved_eq_some hhit
        exact absurd hmem (h hit hin policy)
      · intro path hpath
        exact absurd (hlex.symm.trans hpath) (by simp)
  · rename_i hlex
    exact resolves_root hlex
  · rename_i hlex
    exact iff_of_true (resolves_below hlex) trivial

end

def onlyFile (file : Text) : BTreeSet Text := (∅ : BTreeSet Text).insert file

def noPaths : TsconfigPaths := ⟨none, ∅⟩

def aboveRoot : Text := ['.', '.', '/', 'b']

/-- `../b` of a file at the root finds the `b.ts` beside it. -/
theorem above_root_resolves : ¬ Resolves "a.ts".toList aboveRoot (onlyFile "b.ts".toList) noPaths := by
  intro h
  have hclamped : clamped "a.ts".toList aboveRoot = "b".toList := by decide
  have hladder : ("b.ts".toList, Policy.relativeExtensionInferred) ∈ candidates (clamped "a.ts".toList aboveRoot) := by
    rw [hclamped]
    decide
  obtain ⟨hit, hhit⟩ := Option.isSome_iff_exists.1
    (resolved_isSome.2 ⟨_, Std.ExtTreeSet.mem_insert_self, _, hladder⟩)
  obtain ⟨-, path, hpath, -⟩ := h.1 hit hhit
  have hleaves : lexical "a.ts".toList aboveRoot = none := by decide
  exact absurd (hleaves.symm.trans hpath) (by simp)

end HafleyScm.Deps
