import Mathlib

/-!
# Splicing edits back to front

A list of edits against the original coordinates of a sequence, applied by splicing from the last
edit to the first. When edits at one offset are all insertions but one, the earlier splices of that
offset move the bytes the later ones cut: `applyRev_eq_rewrite` says exactly which bytes come out,
as a single left-to-right walk over the original sequence.

`rewrite` is that walk, for any insertions `ins` and any replaced ranges `rep`; two walks over the
same ranges agree exactly when they emit the same at the start of each range (`rewrite_eq_iff`).
-/

namespace Splice
variable {α : Type*}

/-- `xs` with `[start, stop)` replaced by `text`. -/
def splice (start stop : Nat) (text xs : List α) : List α := xs.take start ++ text ++ xs.drop stop

structure Edit (α : Type*) where
  start : Nat
  stop  : Nat
  text  : List α

/-- Splice the edits in, last one first. -/
def applyRev (xs : List α) (es : List (Edit α)) : List α :=
  es.foldr (fun e out => splice e.start e.stop e.text out) xs

@[simp] theorem applyRev_nil (xs : List α) : applyRev xs [] = xs := rfl

@[simp] theorem applyRev_cons (xs : List α) (e : Edit α) (es : List (Edit α)) :
    applyRev xs (e :: es) = splice e.start e.stop e.text (applyRev xs es) := rfl

theorem applyRev_append (xs : List α) (es fs : List (Edit α)) :
    applyRev xs (es ++ fs) = applyRev (applyRev xs fs) es := by
  simp [applyRev, List.foldr_append]

/-! ## The walk -/

/-- Walk the sequence from offset `p`: emit the insertions at `p`, then the replacement of the range
    that starts at `p` (and pass over the range), or else the element at `p`. `skip` elements of
    the range being replaced are left to pass over. -/
def rewrite (ins : Nat → List α) (rep : Nat → Option (Nat × List α)) :
    (skip p : Nat) → List α → List α
  | 0, p, [] => ins p
  | _ + 1, _, [] => []
  | skip + 1, p, _ :: xs => rewrite ins rep skip (p + 1) xs
  | 0, p, x :: xs => ins p ++
    match rep p with
    | some (stop, text) => text ++ rewrite ins rep (stop - p - 1) (p + 1) xs
    | none => x :: rewrite ins rep 0 (p + 1) xs

theorem rewrite_skip {ins : Nat → List α} {rep : Nat → Option (Nat × List α)} {skip p : Nat}
    {xs : List α} (h : skip ≤ xs.length) :
    rewrite ins rep skip p xs = rewrite ins rep 0 (p + skip) (xs.drop skip) := by
  induction xs generalizing skip p with
  | nil =>
    have : skip = 0 := by simpa using h
    subst this; rfl
  | cons x xs ih =>
    cases skip with
    | zero => rfl
    | succ skip =>
      rw [rewrite, ih (by simpa using h), List.drop_succ_cons]
      congr 1; omega

/-- What a walk emits at an offset where a range starts. -/
def emits (ins : Nat → List α) (rep : Nat → Option (Nat × List α)) (p : Nat) : List α :=
  ins p ++ ((rep p).map Prod.snd).getD []

/-- The ranges of `rep` are non-empty, lie in `[0, n)` and do not overlap. -/
structure Ranges (rep : Nat → Option (Nat × List α)) (n : Nat) : Prop where
  inside : ∀ p stop text, rep p = some (stop, text) → p < stop ∧ stop ≤ n
  apart  : ∀ p stop text q, rep p = some (stop, text) → p < q → q < stop → rep q = none

/-- Two walks over the same ranges, equal off them and emitting equally much, agree iff they emit
    the same at every range. -/
theorem rewrite_eq_iff {ins ins' : Nat → List α} {rep rep' : Nat → Option (Nat × List α)} {n : Nat}
    (hr : Ranges rep n) (hstop : ∀ p, (rep p).map Prod.fst = (rep' p).map Prod.fst)
    (hins : ∀ p, rep p = none → ins p = ins' p)
    (hlen : ∀ p, (emits ins rep p).length = (emits ins' rep' p).length)
    {skip p : Nat} {xs : List α} (hn : p + xs.length = n) (hle : skip ≤ xs.length)
    (hskip : ∀ q, p ≤ q → q < p + skip → rep q = none) :
    rewrite ins rep skip p xs = rewrite ins' rep' skip p xs ↔
      ∀ q, p ≤ q → rep q ≠ none → emits ins rep q = emits ins' rep' q := by
  induction xs generalizing skip p with
  | nil =>
    have hz : skip = 0 := by simpa using hle
    have hnone : ∀ q, p ≤ q → rep q = none := fun q hq => by
      cases h : rep q with
      | none => rfl
      | some st =>
        have := hr.inside q st.1 st.2 h
        simp only [List.length_nil] at hn; omega
    subst hz
    exact iff_of_true (by rw [rewrite, rewrite, hins p (hnone p le_rfl)])
      fun q hq hne => absurd (hnone q hq) hne
  | cons x xs ih =>
    have hn' : p + 1 + xs.length = n := by rw [List.length_cons] at hn; omega
    cases skip with
    | succ skip =>
      rw [rewrite, rewrite, ih hn' (by simpa using hle) fun q h1 h2 => hskip q (by omega) (by omega)]
      refine ⟨fun h q hq hne => h q ?_ hne, fun h q hq hne => h q (by omega) hne⟩
      rcases Nat.eq_or_lt_of_le hq with rfl | hlt
      · exact absurd (hskip p le_rfl (by omega)) hne
      · exact hlt
    | zero =>
      have hp := hstop p
      have hlp := hlen p
      cases hrep : rep p with
      | none =>
        have hrep' : rep' p = none := by rw [hrep] at hp; simpa using hp.symm
        simp only [rewrite, hrep, hrep', hins p hrep, List.append_cancel_left_eq, List.cons.injEq,
          true_and, ih hn' (Nat.zero_le _) fun q h1 h2 => absurd h2 (by omega)]
        refine ⟨fun h q hq hne => h q ?_ hne, fun h q hq hne => h q (by omega) hne⟩
        rcases Nat.eq_or_lt_of_le hq with rfl | hlt
        · exact absurd hrep hne
        · exact hlt
      | some st =>
        obtain ⟨stop, text⟩ := st
        obtain ⟨text', hrep'⟩ : ∃ text', rep' p = some (stop, text') := by
          rw [hrep] at hp
          cases h : rep' p with
          | none => rw [h] at hp; simp at hp
          | some st => rw [h] at hp; exact ⟨st.2, by simp at hp; rw [hp]⟩
        obtain ⟨hps, hsn⟩ := hr.inside p stop text hrep
        have he : emits ins rep p = ins p ++ text := by simp [emits, hrep]
        have he' : emits ins' rep' p = ins' p ++ text' := by simp [emits, hrep']
        have hrec := ih hn' (show stop - p - 1 ≤ xs.length by omega)
          fun q h1 h2 => hr.apart p stop text q hrep (by omega) (by omega)
        rw [he, he'] at hlp
        simp only [rewrite, hrep, hrep', ← List.append_assoc]
        constructor
        · intro h q hq hne
          obtain ⟨h1, h2⟩ := List.append_inj h hlp
          rcases Nat.eq_or_lt_of_le hq with rfl | hlt
          · rw [he, he', h1]
          · exact hrec.1 h2 q hlt hne
        · intro h
          rw [← he, ← he', h p le_rfl (by simp [hrep]), hrec.2 fun q hq hne => h q (by omega) hne]

/-! ## The edits at one offset -/

def Edit.IsInsertion (e : Edit α) : Prop := e.start = e.stop

instance (e : Edit α) : Decidable e.IsInsertion := inferInstanceAs (Decidable (e.start = e.stop))

def texts (es : List (Edit α)) : List α := es.flatMap Edit.text

/-- Insertions at `p` land in list order. -/
theorem applyRev_insertions {p : Nat} {xs : List α} {es : List (Edit α)}
    (hes : ∀ e ∈ es, e.start = p ∧ e.stop = p) (hp : p ≤ xs.length) :
    applyRev xs es = xs.take p ++ texts es ++ xs.drop p := by
  induction es with
  | nil => simp [texts]
  | cons e es ih =>
    obtain ⟨hstart, hstop⟩ := hes e (by simp)
    have hlen : (xs.take p).length = p := by simp; omega
    rw [applyRev_cons, ih fun f hf => hes f (by simp [hf]), hstart, hstop, splice, texts, texts,
      List.flatMap_cons]
    simp only [List.append_assoc]
    rw [List.take_append_of_le_length (by omega), List.take_of_length_le (by omega),
      List.drop_append_of_le_length (by omega), List.drop_of_length_le (by omega), List.nil_append]

/-- What the edits of one offset, in list order, do to a sequence: those before the replacement land
    in front of it, those after it land in front of the range the replacement then cuts. -/
theorem applyRev_offset {p stop : Nat} {xs W text : List α} {A B : List (Edit α)}
    (hA : ∀ e ∈ A, e.start = p ∧ e.stop = p) (hB : ∀ e ∈ B, e.start = p ∧ e.stop = p)
    (hps : p ≤ stop) (hsl : stop ≤ xs.length) :
    applyRev (xs.take stop ++ W) (A ++ ⟨p, stop, text⟩ :: B) =
      xs.take p ++ (texts A ++ (text ++ (texts B ++ (xs.take stop).drop p).drop (stop - p))) ++ W := by
  have htake : (xs.take stop).take p = xs.take p := by rw [List.take_take, Nat.min_eq_left hps]
  have hls : (xs.take stop).length = stop := by simp; omega
  have hlp : (xs.take p).length = p := by simp; omega
  have hcut : (texts B ++ (xs.take stop).drop p).length = (texts B).length + (stop - p) := by
    simp; omega
  rw [applyRev_append, applyRev_cons, applyRev_insertions hB (by simp; omega),
    List.take_append_of_le_length (by omega), List.drop_append_of_le_length (by omega), htake]
  have hsplice : splice p stop text (xs.take p ++ texts B ++ ((xs.take stop).drop p ++ W)) =
      xs.take p ++ (text ++ ((texts B ++ (xs.take stop).drop p).drop (stop - p) ++ W)) := by
    have hdrop : (xs.take p ++ (texts B ++ ((xs.take stop).drop p ++ W))).drop stop =
        (texts B ++ ((xs.take stop).drop p ++ W)).drop (stop - p) := by
      rw [List.drop_append, List.drop_of_length_le (by omega), hlp, List.nil_append]
    simp only [splice, List.append_assoc]
    rw [hdrop, List.take_append_of_le_length (by omega), List.take_of_length_le (by omega),
      ← List.append_assoc (texts B), List.drop_append_of_le_length (by omega)]
  rw [hsplice, applyRev_insertions hA (by simp; omega), List.take_append_of_le_length (by omega),
    List.take_of_length_le (by omega), List.drop_append_of_le_length (by omega),
    List.drop_of_length_le (by omega)]
  simp only [List.append_assoc, List.nil_append]

/-! ## The whole list -/

/-- Edits sorted by start, in range, whose non-empty ranges overlap neither each other nor an
    insertion. Insertions may share an offset with each other and with the start of a range. -/
structure Spliceable (es : List (Edit α)) (n : Nat) : Prop where
  sorted : es.Pairwise fun e f => e.start ≤ f.start
  inside : ∀ e ∈ es, e.start ≤ e.stop ∧ e.stop ≤ n
  apart  : es.Pairwise fun e f => ¬ e.IsInsertion → ¬ f.IsInsertion → e.stop ≤ f.start
  free   : ∀ e ∈ es, ∀ f ∈ es, f.IsInsertion → ¬ (e.start < f.start ∧ f.start < e.stop)

def atOffset (es : List (Edit α)) (p : Nat) : List (Edit α) := es.filter fun e => e.start = p

/-- The insertions at `p` that precede the range starting there (all of them when there is none). -/
def fore (es : List (Edit α)) (p : Nat) : List α :=
  texts ((atOffset es p).takeWhile fun e => e.IsInsertion)

/-- The range that starts at `p`, with the text that ends up in its place. -/
def cut (es : List (Edit α)) (xs : List α) (p : Nat) : Option (Nat × List α) :=
  match (atOffset es p).dropWhile fun e => e.IsInsertion with
  | [] => none
  | e :: B => some (e.stop, e.text ++ (texts B ++ (xs.take e.stop).drop p).drop (e.stop - p))

theorem mem_atOffset {es : List (Edit α)} {p : Nat} {e : Edit α} :
    e ∈ atOffset es p ↔ e ∈ es ∧ e.start = p := by simp [atOffset]

/-- In a sorted list the edits from `p` on are those at `p`, then the later ones. -/
theorem filter_from {es : List (Edit α)} (hs : es.Pairwise fun e f => e.start ≤ f.start) (p : Nat) :
    es.filter (fun e => p ≤ e.start) = atOffset es p ++ es.filter fun e => p + 1 ≤ e.start := by
  induction es with
  | nil => rfl
  | cons e es ih =>
    rw [List.pairwise_cons] at hs
    have ih := ih hs.2
    rcases Nat.lt_trichotomy e.start p with hlt | heq | hgt
    · simp only [atOffset, List.filter_cons] at ih ⊢
      simp [ih, show ¬ p ≤ e.start by omega, show ¬ e.start = p by omega,
        show ¬ p + 1 ≤ e.start by omega]
    · simp only [atOffset, List.filter_cons] at ih ⊢
      simp [ih, heq]
    · -- everything from here on starts above `p`
      have hnone : atOffset es p = [] := by
        refine List.filter_eq_nil_iff.2 fun f hf => ?_
        have := hs.1 f hf
        simp only [decide_eq_true_eq]; omega
      have hnil : atOffset (e :: es) p = [] := by
        rw [atOffset, List.filter_cons_of_neg (by simp; omega)]; exact hnone
      rw [hnone, List.nil_append] at ih
      rw [hnil, List.nil_append, List.filter_cons_of_pos (by simp; omega),
        List.filter_cons_of_pos (by simp; omega), ih]

/-- A range is over before the next start. -/
theorem Spliceable.next_start {es : List (Edit α)} {n : Nat} (h : Spliceable es n) {e f : Edit α}
    (he : e ∈ es) (hf : f ∈ es) (hne : ¬ e.IsInsertion) (hlt : e.start < f.start) :
    e.stop ≤ f.start := by
  by_cases hfi : f.IsInsertion
  · have := h.free e he f hf hfi
    omega
  · obtain ⟨i, hi, rfl⟩ := List.getElem_of_mem he
    obtain ⟨j, hj, rfl⟩ := List.getElem_of_mem hf
    rcases Nat.lt_trichotomy i j with hij | rfl | hij
    · exact List.pairwise_iff_getElem.1 h.apart i j hi hj hij hne hfi
    · omega
    · have := List.pairwise_iff_getElem.1 h.sorted j i hj hi hij
      omega

/-- The edits at `p`: insertions only, or insertions around one range. -/
theorem Spliceable.offset_cases {es : List (Edit α)} {n : Nat} (h : Spliceable es n) (xs : List α)
    (p : Nat) :
    ((∀ e ∈ atOffset es p, e.start = p ∧ e.stop = p) ∧ cut es xs p = none ∧
      fore es p = texts (atOffset es p)) ∨
    ∃ A B stop text, atOffset es p = A ++ ⟨p, stop, text⟩ :: B ∧ ⟨p, stop, text⟩ ∈ es ∧ p < stop ∧
      (∀ e ∈ A, e.start = p ∧ e.stop = p) ∧ (∀ e ∈ B, e.start = p ∧ e.stop = p) ∧
      fore es p = texts A ∧
      cut es xs p = some (stop, text ++ (texts B ++ (xs.take stop).drop p).drop (stop - p)) := by
  have hsplit := List.takeWhile_append_dropWhile (p := fun e => decide e.IsInsertion)
    (l := atOffset es p)
  have hA : ∀ e ∈ (atOffset es p).takeWhile fun e => decide e.IsInsertion,
      e.start = p ∧ e.stop = p := fun e he => by
    have h1 := List.mem_takeWhile_imp he
    have h2 := (mem_atOffset.1 ((List.takeWhile_prefix _).subset he)).2
    have h3 : e.IsInsertion := of_decide_eq_true h1
    simp only [Edit.IsInsertion] at h3
    omega
  cases hd : (atOffset es p).dropWhile fun e => decide e.IsInsertion with
  | nil =>
    rw [hd, List.append_nil] at hsplit
    refine .inl ⟨hsplit ▸ hA, ?_, by rw [fore, hsplit]⟩
    rw [cut, hd]
  | cons e B =>
    have he : ¬ e.IsInsertion := by
      have := List.head_dropWhile_not (fun e => decide (Edit.IsInsertion e))
        (l := atOffset es p) (by rw [hd]; simp)
      simpa [hd] using this
    rw [hd] at hsplit
    have hmem : e ∈ es ∧ e.start = p := mem_atOffset.1 (by rw [← hsplit]; simp)
    have hin := h.inside e hmem.1
    have hpair : (atOffset es p).Pairwise fun e f =>
        ¬ e.IsInsertion → ¬ f.IsInsertion → e.stop ≤ f.start := h.apart.filter _
    have hB : ∀ f ∈ B, f.start = p ∧ f.stop = p := fun f hf => by
      have hfp : f.start = p := (mem_atOffset.1 (by rw [← hsplit]; simp [hf])).2
      refine ⟨hfp, ?_⟩
      by_contra hne
      rw [← hsplit, List.pairwise_append, List.pairwise_cons] at hpair
      have := hpair.2.1.1 f hf he (by simp only [Edit.IsInsertion]; omega)
      simp only [Edit.IsInsertion] at he; omega
    obtain ⟨start, stop, text⟩ := e
    obtain ⟨hes, rfl⟩ := hmem
    simp only [Edit.IsInsertion] at he hin
    exact .inr ⟨_, B, stop, text, hsplit.symm, hes, by simp only; omega, hA, hB, rfl,
      by rw [cut, hd]⟩

theorem Spliceable.applyRev_from {es : List (Edit α)} {xs : List α} (h : Spliceable es xs.length)
    (k : Nat) : ∀ p, p + k = xs.length →
      applyRev xs (es.filter fun e => p ≤ e.start) =
        xs.take p ++ rewrite (fore es) (cut es xs) 0 p (xs.drop p) := by
  induction k using Nat.strong_induction_on with
  | _ k ih =>
  intro p hp
  rw [filter_from h.sorted]
  rcases h.offset_cases xs p with ⟨hins, hcut, hfore⟩ | ⟨A, B, stop, text, hat, hmem, hps, hA, hB,
    hfore, hcut⟩
  · cases k with
    | zero =>
      -- the end of the sequence: nothing starts later
      have hnil : (es.filter fun e => p + 1 ≤ e.start) = [] := by
        refine List.filter_eq_nil_iff.2 fun f hf => ?_
        have := h.inside f hf
        simp only [decide_eq_true_eq]; omega
      rw [hnil, List.append_nil, applyRev_insertions hins (by omega), ← hfore,
        List.drop_of_length_le (by omega), rewrite, List.append_nil]
    | succ k =>
      have hlt : p < xs.length := by omega
      rw [applyRev_append, ih k (by omega) (p + 1) (by omega), applyRev_insertions hins (by simp; omega),
        ← hfore, List.drop_eq_getElem_cons hlt, rewrite, hcut]
      have hlen : (xs.take (p + 1)).length = p + 1 := by simp; omega
      rw [List.take_append_of_le_length (by omega), List.drop_append_of_le_length (by omega),
        List.take_take, Nat.min_eq_left (by omega), List.take_succ_eq_append_getElem hlt,
        List.drop_append_of_le_length (by simp; omega), List.drop_of_length_le (by simp)]
      simp
  · have hin := h.inside _ hmem
    simp only at hin
    -- the range is cut out: the edits after it are those from `stop` on
    have hnext : (es.filter fun e => p + 1 ≤ e.start) = es.filter fun e => stop ≤ e.start := by
      refine List.filter_congr fun f hf => ?_
      refine decide_eq_decide.2 ⟨fun hlt => ?_, fun hle => by omega⟩
      exact h.next_start hmem hf (by simp only [Edit.IsInsertion]; omega) (by simp only; omega)
    rw [hnext, applyRev_append, ih (xs.length - stop) (by omega) stop (by omega), hat,
      applyRev_offset hA hB (by omega) hin.2, ← hfore]
    have hlt : p < xs.length := by omega
    rw [List.drop_eq_getElem_cons hlt, rewrite, hcut]
    simp only
    rw [rewrite_skip (show stop - p - 1 ≤ (xs.drop (p + 1)).length by simp; omega), List.drop_drop,
      show p + 1 + (stop - p - 1) = stop by omega]
    simp only [List.append_assoc]

/-- Splicing the later edits leaves the sequence long enough for an earlier one. -/
theorem le_length_applyRev {q : Nat} {xs : List α} {es : List (Edit α)}
    (h : ∀ e ∈ es, e.IsInsertion ∨ q ≤ e.start) (hq : q ≤ xs.length) :
    q ≤ (applyRev xs es).length := by
  induction es with
  | nil => exact hq
  | cons e es ih =>
    have ih := ih fun f hf => h f (by simp [hf])
    rw [applyRev_cons, splice, List.length_append, List.length_append, List.length_take,
      List.length_drop]
    rcases h e (by simp) with hins | hle
    · simp only [Edit.IsInsertion] at hins; omega
    · omega

theorem Spliceable.tail {e : Edit α} {es : List (Edit α)} {n : Nat} (h : Spliceable (e :: es) n) :
    Spliceable es n :=
  ⟨(List.pairwise_cons.1 h.sorted).2, fun f hf => h.inside f (by simp [hf]),
    (List.pairwise_cons.1 h.apart).2, fun f hf g hg => h.free f (by simp [hf]) g (by simp [hg])⟩

/-- No splice cuts past the end. -/
theorem Spliceable.stop_le {e : Edit α} {es : List (Edit α)} {xs : List α}
    (h : Spliceable (e :: es) xs.length) : e.stop ≤ (applyRev xs es).length := by
  refine le_length_applyRev (fun f hf => ?_) (h.inside e (by simp)).2
  by_cases hfi : f.IsInsertion
  · exact .inl hfi
  · refine .inr ?_
    by_cases hei : e.IsInsertion
    · have := (List.pairwise_cons.1 h.sorted).1 f hf
      simp only [Edit.IsInsertion] at hei; omega
    · exact (List.pairwise_cons.1 h.apart).1 f hf hei hfi

/-- **Back-to-front splicing is a front-to-back walk.** -/
theorem Spliceable.applyRev_eq_rewrite {es : List (Edit α)} {xs : List α}
    (h : Spliceable es xs.length) :
    applyRev xs es = rewrite (fore es) (cut es xs) 0 0 xs := by
  have := h.applyRev_from xs.length 0 (by omega)
  simpa using this

end Splice

/-!
# Splicing edits front to back

`forward` copies the sequence up to each edit, writes the edit's text and goes on behind it. It commutes with
maps of the elements (`forward_map`), and what no edit covers is still there (`mem_forward_of_kept`).
-/

namespace Splice
variable {α β : Type*}

def Edit.map (f : α → β) (e : Edit α) : Edit β := ⟨e.start, e.stop, e.text.map f⟩

def forward (xs : List α) : Nat → List (Edit α) → List α
  | cursor, [] => xs.drop cursor
  | cursor, e :: es => (xs.drop cursor).take (e.start - cursor) ++ e.text ++ forward xs e.stop es

theorem forward_map (f : α → β) (xs : List α) (cursor : Nat) (es : List (Edit α)) :
    (forward xs cursor es).map f = forward (xs.map f) cursor (es.map (Edit.map f)) := by
  induction es generalizing cursor with
  | nil => simp [forward, List.map_drop]
  | cons e es ih => simp [forward, Edit.map, List.map_take, List.map_drop, ih]

theorem mem_forward {xs : List α} {cursor : Nat} {es : List (Edit α)} {x : α} (h : x ∈ forward xs cursor es) :
    x ∈ xs ∨ ∃ e ∈ es, x ∈ e.text := by
  induction es generalizing cursor with
  | nil => exact .inl (List.mem_of_mem_drop h)
  | cons e es ih =>
    simp only [forward, List.mem_append] at h
    rcases h with (h | h) | h
    · exact .inl (List.mem_of_mem_drop (List.mem_of_mem_take h))
    · exact .inr ⟨e, List.mem_cons_self, h⟩
    · rcases ih h with h | ⟨e', he', h⟩
      · exact .inl h
      · exact .inr ⟨e', List.mem_cons_of_mem _ he', h⟩

theorem mem_forward_of_kept {xs : List α} {cursor p : Nat} {es : List (Edit α)} {x : α} (hx : xs[p]? = some x)
    (hcursor : cursor ≤ p) (hkept : ∀ e ∈ es, p < e.start ∨ e.stop ≤ p) : x ∈ forward xs cursor es := by
  induction es generalizing cursor with
  | nil =>
    refine List.mem_of_getElem? (i := p - cursor) ?_
    rw [forward, List.getElem?_drop, Nat.add_sub_cancel' hcursor, hx]
  | cons e es ih =>
    rw [forward, List.append_assoc, List.mem_append, List.mem_append]
    rcases hkept e List.mem_cons_self with hlt | hle
    · refine .inl (List.mem_of_getElem? (i := p - cursor) ?_)
      rw [List.getElem?_take_of_lt (by omega), List.getElem?_drop, Nat.add_sub_cancel' hcursor, hx]
    · exact .inr (.inr (ih hle fun e' he' => hkept e' (List.mem_cons_of_mem _ he')))

end Splice
