import HafleyRs.HafleyScm.MacroSpans

/-!
# The chunks of a pass (`crates/hafley_scm/src/lang/rust/syn_macro_expansion_defs.rs:625`)

A list of chunks says of each byte where it comes from (`sources`). Copying a range copies the sources of the range
and keeps the chunks tiled (`pushVerbatimRange_spec`), so a pass edits the sources as it edits the text
(`applyPass_spec`).
-/

namespace HafleyScm.Expansion

/-! ## Sources -/

def Chunk.sources : Chunk → List Source
  | .verbatim start stop orig => (List.range' orig (stop - start)).map .original
  | .ofMacro start stop origin _ => List.replicate (stop - start) (.minted (some origin))

def sources (chunks : List Chunk) : List Source := chunks.flatMap Chunk.sources

@[simp] theorem sources_nil : sources [] = [] := rfl

@[simp] theorem sources_cons (c : Chunk) (cs : List Chunk) : sources (c :: cs) = c.sources ++ sources cs := rfl

@[simp] theorem sources_append (cs ds : List Chunk) : sources (cs ++ ds) = sources cs ++ sources ds := by
  simp [sources]

@[simp] theorem Chunk.sources_length (c : Chunk) : c.sources.length = c.stop - c.start := by
  cases c with
  | verbatim start stop orig => simp [Chunk.sources, Chunk.start, Chunk.stop]
  | ofMacro start stop origin name => simp [Chunk.sources, Chunk.start, Chunk.stop]

/-! ## Tiles -/

theorem Tiles.le {a b : Nat} {cs : List Chunk} (h : Tiles a cs b) : a ≤ b := by
  induction cs generalizing a with
  | nil => exact Nat.le_of_eq h
  | cons c cs ih =>
    obtain ⟨-, hle, h⟩ := h
    exact hle.trans (ih h)

theorem Tiles.append {a b d : Nat} {cs ds : List Chunk} (h : Tiles a cs b) (h' : Tiles b ds d) :
    Tiles a (cs ++ ds) d := by
  induction cs generalizing a with
  | nil =>
    cases h
    exact h'
  | cons c cs ih => exact ⟨h.1, h.2.1, ih h.2.2⟩

theorem Tiles.split {a b : Nat} {pre post : List Chunk} {c : Chunk} (h : Tiles a (pre ++ c :: post) b) :
    Tiles a pre c.start ∧ c.start ≤ c.stop ∧ Tiles c.stop post b := by
  induction pre generalizing a with
  | nil =>
    obtain ⟨rfl, hle, h⟩ := h
    exact ⟨rfl, hle, h⟩
  | cons d pre ih =>
    obtain ⟨hstart, hle, h⟩ := h
    obtain ⟨hpre, hc, hpost⟩ := ih h
    exact ⟨⟨hstart, hle, hpre⟩, hc, hpost⟩

theorem Tiles.bounds {a b : Nat} {cs : List Chunk} (h : Tiles a cs b) {c : Chunk} (hc : c ∈ cs) :
    a ≤ c.start ∧ c.start ≤ c.stop ∧ c.stop ≤ b := by
  obtain ⟨pre, post, rfl⟩ := List.append_of_mem hc
  obtain ⟨hpre, hle, hpost⟩ := h.split
  exact ⟨hpre.le, hle, hpost.le⟩

theorem Tiles.sources_length {a b : Nat} {cs : List Chunk} (h : Tiles a cs b) : (sources cs).length = b - a := by
  induction cs generalizing a with
  | nil =>
    cases h
    simp
  | cons c cs ih =>
    obtain ⟨rfl, hle, h⟩ := h
    have := h.le
    rw [sources_cons, List.length_append, ih h, Chunk.sources_length]
    omega

/-- The sources inside a chunk are those of the chunk. -/
theorem Tiles.sources_inside {a b lo : Nat} (n : Nat) {cs : List Chunk} (h : Tiles a cs b) {c : Chunk} (hc : c ∈ cs)
    (hlo : c.start ≤ lo) (hhi : lo + n ≤ c.stop) :
    ((sources cs).drop (lo - a)).take n = (c.sources.drop (lo - c.start)).take n := by
  obtain ⟨pre, post, rfl⟩ := List.append_of_mem hc
  obtain ⟨hpre, -, -⟩ := h.split
  have hlen := hpre.sources_length
  have hle := hpre.le
  rw [sources_append, sources_cons, List.drop_append, List.drop_of_length_le (by omega), List.nil_append, hlen,
    show lo - a - (c.start - a) = lo - c.start by omega, List.drop_append_of_le_length (by simp; omega),
    List.take_append_of_le_length (by simp; omega)]

/-! ## Copying a range -/

def moved (oldChunks : List Chunk) (shift fromOld toOld : Nat) : List Chunk :=
  oldChunks.filterMap fun c =>
    let lo := max c.start fromOld
    let hi := min c.stop toOld
    if hi ≤ lo then none else some (moveChunk shift fromOld lo hi c)

/-- The place of an offset in a copied range, the nearest one for an offset outside. -/
def clamp (fromOld toOld x : Nat) : Nat := min (max x fromOld) toOld

theorem moved_cons (c : Chunk) (cs : List Chunk) (shift fromOld toOld : Nat) :
    moved (c :: cs) shift fromOld toOld =
      (if min c.stop toOld ≤ max c.start fromOld then []
        else [moveChunk shift fromOld (max c.start fromOld) (min c.stop toOld) c]) ++ moved cs shift fromOld toOld := by
  by_cases h : min c.stop toOld ≤ max c.start fromOld
  · rw [if_pos h, List.nil_append, moved, List.filterMap_cons_none]
    · rfl
    · simp only [if_pos h]
  · rw [if_neg h, moved, List.filterMap_cons_some]
    · rfl
    · simp only [if_neg h]

@[simp] theorem moveChunk_start (shift fromOld lo hi : Nat) (c : Chunk) :
    (moveChunk shift fromOld lo hi c).start = shift + (lo - fromOld) := by
  cases c with
  | verbatim start stop orig => rfl
  | ofMacro start stop origin name => rfl

@[simp] theorem moveChunk_stop (shift fromOld lo hi : Nat) (c : Chunk) :
    (moveChunk shift fromOld lo hi c).stop = shift + (hi - fromOld) := by
  cases c with
  | verbatim start stop orig => rfl
  | ofMacro start stop origin name => rfl

theorem moved_tiles (shift : Nat) {a b fromOld toOld : Nat} {cs : List Chunk} (h : Tiles a cs b)
    (hle : fromOld ≤ toOld) :
    Tiles (shift + (clamp fromOld toOld a - fromOld)) (moved cs shift fromOld toOld)
      (shift + (clamp fromOld toOld b - fromOld)) := by
  induction cs generalizing a with
  | nil =>
    cases h
    rfl
  | cons c cs ih =>
    obtain ⟨rfl, hc, h⟩ := h
    rw [moved_cons]
    by_cases hout : min c.stop toOld ≤ max c.start fromOld
    · have : clamp fromOld toOld c.start = clamp fromOld toOld c.stop := by
        simp only [clamp]
        omega
      rw [if_pos hout, this]
      exact ih h
    · have hstart : clamp fromOld toOld c.start = max c.start fromOld := by
        simp only [clamp]
        omega
      have hstop : clamp fromOld toOld c.stop = min c.stop toOld := by
        simp only [clamp]
        omega
      rw [if_neg hout]
      refine ⟨by rw [moveChunk_start, hstart], ?_, ?_⟩
      · rw [moveChunk_stop, hstart]
        omega
      · rw [moveChunk_stop, ← hstop]
        exact ih h

theorem take_range' (start n k : Nat) : (List.range' start n).take k = List.range' start (min k n) := by
  rcases Nat.le_total n k with h | h
  · rw [List.take_range'_of_length_le h, min_eq_right h]
  · rw [List.take_range'_of_length_ge h, min_eq_left h]

theorem moveChunk_sources {shift fromOld toOld : Nat} {c : Chunk} (hc : c.start ≤ c.stop) :
    sources (if min c.stop toOld ≤ max c.start fromOld then []
        else [moveChunk shift fromOld (max c.start fromOld) (min c.stop toOld) c]) =
      (c.sources.take (toOld - c.start)).drop (fromOld - c.start) := by
  by_cases hout : min c.stop toOld ≤ max c.start fromOld
  · rw [if_pos hout, sources_nil, eq_comm, List.drop_eq_nil_iff, List.length_take, Chunk.sources_length]
    omega
  · rw [if_neg hout]
    cases c with
    | verbatim start stop orig =>
      simp only [Chunk.start, Chunk.stop] at hc hout ⊢
      simp only [sources_cons, sources_nil, List.append_nil, Chunk.sources, moveChunk, ← List.map_take,
        ← List.map_drop, take_range', List.drop_range', mul_one]
      congr 2 <;> omega
    | ofMacro start stop origin name =>
      simp only [Chunk.start, Chunk.stop] at hc hout ⊢
      simp only [sources_cons, sources_nil, List.append_nil, Chunk.sources, moveChunk, List.take_replicate,
        List.drop_replicate]
      congr 1
      omega

theorem moved_sources {a b shift fromOld toOld : Nat} {cs : List Chunk} (h : Tiles a cs b) :
    sources (moved cs shift fromOld toOld) = ((sources cs).take (toOld - a)).drop (fromOld - a) := by
  induction cs generalizing a with
  | nil => simp [moved]
  | cons c cs ih =>
    obtain ⟨rfl, hc, h⟩ := h
    rw [moved_cons, sources_append, moveChunk_sources hc, ih h, sources_cons, List.take_append, List.drop_append,
      Chunk.sources_length, List.length_take, Chunk.sources_length]
    congr 1
    by_cases hto : c.stop ≤ toOld
    · rw [show toOld - c.start - (c.stop - c.start) = toOld - c.stop by omega,
        show fromOld - c.start - min (toOld - c.start) (c.stop - c.start) = fromOld - c.stop by omega]
    · rw [show toOld - c.stop = 0 by omega, show toOld - c.start - (c.stop - c.start) = 0 by omega]
      simp

/-! ## A pass -/

/-- What a part of a pass adds to the text and to the sources; the chunks still tile the text. -/
structure Pushed (text : Text) (added : List Source) (a a' : Applied) : Prop where
  text    : a'.text = a.text ++ text
  sources : sources a'.chunks = sources a.chunks ++ added
  tiles   : Tiles 0 a.chunks a.text.length → Tiles 0 a'.chunks a'.text.length
  grows   : ∀ c ∈ a.chunks, c ∈ a'.chunks

theorem Pushed.refl (a : Applied) : Pushed [] [] a a :=
  ⟨by simp, by simp, id, fun _ hc => hc⟩

theorem Pushed.trans {text text' : Text} {added added' : List Source} {a a' a'' : Applied}
    (h : Pushed text added a a') (h' : Pushed text' added' a' a'') :
    Pushed (text ++ text') (added ++ added') a a'' where
  text := by rw [h'.text, h.text, List.append_assoc]
  sources := by rw [h'.sources, h.sources, List.append_assoc]
  tiles ht := h'.tiles (h.tiles ht)
  grows c hc := h'.grows c (h.grows c hc)

section
variable {oldText : Text} {oldChunks : List Chunk}

theorem pushVerbatimRange_pushed (htiles : Tiles 0 oldChunks oldText.length) (fromOld : Nat) {toOld : Nat}
    (hto : toOld ≤ oldText.length) (a : Applied) :
    Pushed ((oldText.drop fromOld).take (toOld - fromOld)) (((sources oldChunks).drop fromOld).take (toOld - fromOld))
      a (pushVerbatimRange oldText oldChunks fromOld toOld a) := by
  by_cases hle : toOld ≤ fromOld
  · rw [pushVerbatimRange, if_pos hle, Nat.sub_eq_zero_of_le hle, List.take_zero, List.take_zero]
    exact Pushed.refl a
  · have hchunks : (pushVerbatimRange oldText oldChunks fromOld toOld a).chunks =
        a.chunks ++ moved oldChunks a.text.length fromOld toOld := by
      rw [pushVerbatimRange, if_neg hle]
      rfl
    have htext : (pushVerbatimRange oldText oldChunks fromOld toOld a).text =
        a.text ++ (oldText.drop fromOld).take (toOld - fromOld) := by
      rw [pushVerbatimRange, if_neg hle]
      rfl
    refine ⟨htext, ?_, ?_, ?_⟩
    · rw [hchunks, sources_append, moved_sources htiles, Nat.sub_zero, Nat.sub_zero, List.drop_take]
    · intro ht
      rw [hchunks, htext]
      refine ht.append ?_
      have hm := moved_tiles a.text.length htiles (show fromOld ≤ toOld by omega)
      have hstart : clamp fromOld toOld 0 = fromOld := by
        simp only [clamp]
        omega
      have hstop : clamp fromOld toOld oldText.length = toOld := by
        simp only [clamp]
        omega
      rw [hstart, hstop, Nat.sub_self, Nat.add_zero] at hm
      have hlen : (a.text ++ (oldText.drop fromOld).take (toOld - fromOld)).length =
          a.text.length + (toOld - fromOld) := by
        simp only [List.length_append, List.length_take, List.length_drop]
        omega
      rwa [hlen]
    · intro c hc
      rw [hchunks]
      exact List.mem_append_left _ hc

def mintedChunk (oldChunks : List Chunk) (start : Nat) (e : Edit) : Chunk :=
  .ofMacro start (start + e.replacement.length) (invocationOrigin oldChunks e.range e.name).1
    (invocationOrigin oldChunks e.range e.name).2

theorem applyEdit_pushed (htiles : Tiles 0 oldChunks oldText.length) {e : Edit}
    (hstart : e.range.start ≤ oldText.length) (a : Applied) :
    Pushed ((oldText.drop a.cursor).take (e.range.start - a.cursor) ++ e.replacement)
      (((sources oldChunks).drop a.cursor).take (e.range.start - a.cursor) ++
        List.replicate e.replacement.length (.minted (some (invocationOrigin oldChunks e.range e.name).1)))
      a (applyEdit oldText oldChunks a e) ∧
    (∃ start, mintedChunk oldChunks start e ∈ (applyEdit oldText oldChunks a e).chunks) := by
  have hpush := pushVerbatimRange_pushed htiles a.cursor hstart a
  have hchunks : (applyEdit oldText oldChunks a e).chunks =
      (pushVerbatimRange oldText oldChunks a.cursor e.range.start a).chunks ++
        [mintedChunk oldChunks (pushVerbatimRange oldText oldChunks a.cursor e.range.start a).text.length e] := by
    simp [applyEdit, mintedChunk]
  have htext : (applyEdit oldText oldChunks a e).text =
      (pushVerbatimRange oldText oldChunks a.cursor e.range.start a).text ++ e.replacement := rfl
  refine ⟨hpush.trans ⟨htext, ?_, ?_, ?_⟩,
    (pushVerbatimRange oldText oldChunks a.cursor e.range.start a).text.length, ?_⟩
  · rw [hchunks]
    simp [mintedChunk, Chunk.sources]
  · intro ht
    rw [hchunks, htext, List.length_append]
    exact ht.append ⟨rfl, by simp [mintedChunk, Chunk.stop], rfl⟩
  · intro c hc
    rw [hchunks]
    exact List.mem_append_left _ hc
  · rw [hchunks]
    exact List.mem_append_right _ (List.mem_singleton_self _)

/-- The edits of the text and of the sources that a list of invocations makes. -/
def textEdit (e : Edit) : Splice.Edit Byte := ⟨e.range.start, e.range.stop, e.replacement⟩

def sourceEdit (oldChunks : List Chunk) (e : Edit) : Splice.Edit Source :=
  ⟨e.range.start, e.range.stop,
    List.replicate e.replacement.length (.minted (some (invocationOrigin oldChunks e.range e.name).1))⟩

/-- The rest of a pass: the edits that are left, then the text behind them. -/
def finish (oldText : Text) (oldChunks : List Chunk) (a : Applied) (edits : List Edit) : Applied :=
  let a := edits.foldl (applyEdit oldText oldChunks) a
  pushVerbatimRange oldText oldChunks a.cursor oldText.length a

theorem finish_pushed (htiles : Tiles 0 oldChunks oldText.length) {edits : List Edit}
    (hstart : ∀ e ∈ edits, e.range.start ≤ oldText.length) (a : Applied) :
    Pushed (Splice.forward oldText a.cursor (edits.map textEdit))
      (Splice.forward (sources oldChunks) a.cursor (edits.map (sourceEdit oldChunks)))
      a (finish oldText oldChunks a edits) := by
  induction edits generalizing a with
  | nil =>
    have hpush := pushVerbatimRange_pushed htiles a.cursor le_rfl a
    rw [List.take_of_length_le (by simp), List.take_of_length_le (by simp [htiles.sources_length])] at hpush
    exact hpush
  | cons e rest ih =>
    have hrest := ih (fun e' he' => hstart e' (List.mem_cons_of_mem _ he')) (applyEdit oldText oldChunks a e)
    exact (applyEdit_pushed htiles (hstart e List.mem_cons_self) a).1.trans hrest

/-- A pass edits the sources as it edits the text, and its chunks tile the new text. -/
theorem applyPass_spec {s : Spliced} {edits : List Edit} (htiles : Tiles 0 s.chunks s.text.length)
    (hplaced : WellPlaced s.text edits) :
    (s.pass edits).text = Splice.forward s.text 0 ((inOrder edits).map textEdit) ∧
    sources (s.pass edits).chunks = Splice.forward (sources s.chunks) 0 ((inOrder edits).map (sourceEdit s.chunks)) ∧
    Tiles 0 (s.pass edits).chunks (s.pass edits).text.length := by
  have hstart : ∀ e ∈ inOrder edits, e.range.start ≤ s.text.length := by
    intro e he
    have := hplaced.inside e ((List.perm_insertionSort _ _).mem_iff.1 he)
    omega
  have hpushed := finish_pushed htiles hstart ⟨[], [], [], 0⟩
  exact ⟨hpushed.text, hpushed.sources, hpushed.tiles rfl⟩

/-! ## The origins -/

/-- The invocations that the macro chunks name. -/
def Names (chunks : List Chunk) (origin : ByteRange) : Prop :=
  ∃ start stop name, .ofMacro start stop origin name ∈ chunks

theorem names_of_source {chunks : List Chunk} {origin : ByteRange} (h : .minted (some origin) ∈ sources chunks) :
    Names chunks origin := by
  obtain ⟨c, hc, hmem⟩ := List.mem_flatMap.1 h
  cases c with
  | verbatim start stop orig => simp [Chunk.sources] at hmem
  | ofMacro start stop origin' name =>
    simp only [Chunk.sources, List.mem_replicate, Source.minted.injEq, Option.some.injEq] at hmem
    exact ⟨start, stop, name, hmem.2 ▸ hc⟩

theorem names_moved {shift fromOld toOld : Nat} {origin : ByteRange}
    (h : Names (moved oldChunks shift fromOld toOld) origin) : Names oldChunks origin := by
  obtain ⟨start, stop, name, hmem⟩ := h
  obtain ⟨c, hc, hmoved⟩ := List.mem_filterMap.1 hmem
  by_cases hout : min c.stop toOld ≤ max c.start fromOld
  · rw [if_pos hout] at hmoved
    cases hmoved
  · rw [if_neg hout, Option.some.injEq] at hmoved
    cases c with
    | verbatim start' stop' orig => cases hmoved
    | ofMacro start' stop' origin' name' =>
      cases hmoved
      exact ⟨_, _, _, hc⟩

theorem names_append {cs ds : List Chunk} {origin : ByteRange} :
    Names (cs ++ ds) origin ↔ Names cs origin ∨ Names ds origin := by
  constructor
  · rintro ⟨start, stop, name, h⟩
    rcases List.mem_append.1 h with h | h
    · exact .inl ⟨_, _, _, h⟩
    · exact .inr ⟨_, _, _, h⟩
  · rintro (⟨start, stop, name, h⟩ | ⟨start, stop, name, h⟩)
    · exact ⟨_, _, _, List.mem_append_left _ h⟩
    · exact ⟨_, _, _, List.mem_append_right _ h⟩

theorem names_pushVerbatimRange {fromOld toOld : Nat} {a : Applied} {origin : ByteRange}
    (h : Names (pushVerbatimRange oldText oldChunks fromOld toOld a).chunks origin) :
    Names a.chunks origin ∨ Names oldChunks origin := by
  by_cases hle : toOld ≤ fromOld
  · rw [pushVerbatimRange, if_pos hle] at h
    exact .inl h
  · rw [pushVerbatimRange, if_neg hle] at h
    exact (names_append.1 h).imp_right names_moved

theorem names_finish {a : Applied} (edits : List Edit) {origin : ByteRange}
    (h : Names (finish oldText oldChunks a edits).chunks origin) :
    Names a.chunks origin ∨ Names oldChunks origin ∨
      ∃ e ∈ edits, (invocationOrigin oldChunks e.range e.name).1 = origin := by
  induction edits generalizing a with
  | nil => exact (names_pushVerbatimRange h).imp_right .inl
  | cons e rest ih =>
    rcases ih h with h | h | ⟨e', he', h⟩
    · rcases names_append.1 h with h | ⟨start, stop, name, h⟩
      · exact (names_pushVerbatimRange h).imp_right .inl
      · cases List.mem_singleton.1 h
        exact .inr (.inr ⟨e, List.mem_cons_self, rfl⟩)
    · exact .inr (.inl h)
    · exact .inr (.inr ⟨e', List.mem_cons_of_mem _ he', h⟩)

theorem finish_names (htiles : Tiles 0 oldChunks oldText.length) (edits : List Edit)
    (hstart : ∀ e ∈ edits, e.range.start ≤ oldText.length) {a : Applied} {e : Edit} (he : e ∈ edits) :
    Names (finish oldText oldChunks a edits).chunks (invocationOrigin oldChunks e.range e.name).1 := by
  induction edits generalizing a with
  | nil => cases he
  | cons e' rest ih =>
    have hrest : ∀ e ∈ rest, e.range.start ≤ oldText.length := fun e he => hstart e (List.mem_cons_of_mem _ he)
    rcases List.mem_cons.1 he with rfl | he
    · obtain ⟨start, hmem⟩ := (applyEdit_pushed htiles (hstart e List.mem_cons_self) a).2
      have hgrows := (finish_pushed htiles hrest (applyEdit oldText oldChunks a e)).grows
      exact ⟨_, _, _, hgrows _ hmem⟩
    · exact ih hrest he

end

end HafleyScm.Expansion
