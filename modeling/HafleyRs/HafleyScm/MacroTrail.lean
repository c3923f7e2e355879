import HafleyRs.HafleyScm.MacroTiles

/-!
# The span map is exact (`crates/hafley_scm/src/lang/rust/syn_macro_expansion_defs.rs`)

The chunks follow the trail through any passes whose edits lie in one chunk each (`Follows.pass`): there
`invocation_origin` is the position of the replaced bytes (`position_inside`). No origin is lost in a pass that
keeps those of the empty expansions (`names_pass`). What the chunks say of a text then comes from the trail, whose
bytes are those of the content (`Sound`).
-/

namespace HafleyScm.Expansion

/-! ## Positions -/

theorem position_original {i n : Nat} (h : 0 < n) :
    position ((List.range' i n).map .original) = some ⟨i, i + n⟩ := by
  obtain ⟨m, rfl⟩ := Nat.exists_eq_add_of_lt h
  rw [Nat.zero_add, List.range'_succ, List.map_cons, position, if_pos (by simp), List.length_map, List.length_range']
  simp only [Option.some.injEq, ByteRange.mk.injEq, true_and]
  omega

theorem position_minted {origin : Option ByteRange} {n : Nat} (h : 0 < n) :
    position (List.replicate n (.minted origin)) = origin := by
  obtain ⟨m, rfl⟩ := Nat.exists_eq_add_of_lt h
  rw [Nat.zero_add, List.replicate_succ, position, if_pos fun s hs => List.eq_of_mem_replicate hs]

theorem position_of_minted {l : List Source} {origin p : ByteRange} (hmem : .minted (some origin) ∈ l)
    (h : position l = some p) : p = origin := by
  cases l with
  | nil => cases hmem
  | cons s rest =>
    cases s with
    | original i =>
      by_cases hrest : rest = (List.range' (i + 1) rest.length).map .original
      · rw [hrest] at hmem
        simp at hmem
      · rw [position, if_neg hrest] at h
        cases h
    | minted o =>
      by_cases hrest : ∀ s ∈ rest, s = .minted o
      · rw [position, if_pos hrest] at h
        rcases List.mem_cons.1 hmem with heq | hmem
        · cases heq
          exact (Option.some.inj h).symm
        · cases hrest _ hmem
          exact (Option.some.inj h).symm
      · rw [position, if_neg hrest] at h
        cases h

/-- The origin of an invocation inside one chunk is the position of its bytes. -/
theorem position_inside {a b : Nat} {chunks : List Chunk} (h : Tiles a chunks b) {r : ByteRange} (name : Text)
    (hne : r.start < r.stop) (hin : ∃ c ∈ chunks, c.start ≤ r.start ∧ r.stop ≤ c.stop) :
    position (((sources chunks).drop (r.start - a)).take (r.stop - r.start)) =
      some (invocationOrigin chunks r name).1 := by
  have hfound : (chunks.find? fun c => decide (c.start ≤ r.start) && decide (r.stop ≤ c.stop)).isSome := by
    rw [List.find?_isSome]
    obtain ⟨c, hc, hstart, hstop⟩ := hin
    exact ⟨c, hc, by simp [hstart, hstop]⟩
  obtain ⟨c, hfind⟩ := Option.isSome_iff_exists.1 hfound
  have hc : c ∈ chunks := List.mem_of_find?_eq_some hfind
  have hinside := List.find?_some hfind
  simp only [Bool.and_eq_true, decide_eq_true_eq] at hinside
  obtain ⟨hstart, hstop⟩ := hinside
  rw [h.sources_inside _ hc hstart (by omega), invocationOrigin, hfind]
  cases c with
  | verbatim start stop orig =>
    simp only [Chunk.start, Chunk.stop] at hstart hstop ⊢
    rw [Chunk.sources, ← List.map_drop, ← List.map_take, List.drop_range', take_range',
      position_original (by omega)]
    simp only [Option.some.injEq, ByteRange.mk.injEq]
    omega
  | ofMacro start stop origin name' =>
    simp only [Chunk.start, Chunk.stop] at hstart hstop ⊢
    rw [Chunk.sources, List.drop_replicate, List.take_replicate, position_minted (by omega)]

/-! ## The trail -/

/-- The bytes of the trail are the text, and its sources those of the chunks. -/
structure Follows (s : Spliced) (t : Trail) : Prop where
  text    : t.bytes.map Prod.fst = s.text
  sources : t.bytes.map Prod.snd = sources s.chunks
  tiles   : Tiles 0 s.chunks s.text.length

theorem Follows.at_eq {s : Spliced} {t : Trail} (h : Follows s t) (r : ByteRange) :
    t.at r = position (((HafleyScm.Expansion.sources s.chunks).drop r.start).take (r.stop - r.start)) := by
  rw [Trail.at, List.map_take, List.map_drop, h.sources]

theorem Follows.at_inside {s : Spliced} {t : Trail} (h : Follows s t) {e : Edit} (hne : e.range.start < e.range.stop)
    (hin : ∃ c ∈ s.chunks, c.start ≤ e.range.start ∧ e.range.stop ≤ c.stop) :
    t.at e.range = some (invocationOrigin s.chunks e.range e.name).1 := by
  rw [h.at_eq]
  exact position_inside h.tiles e.name hne hin

theorem follows_ofContent (content : Text) : Follows (.ofContent content) (.ofContent content) where
  text := by
    rw [Trail.ofContent, List.map_fst_zip (by simp)]
    rfl
  sources := by
    rw [Trail.ofContent, List.map_snd_zip (by simp)]
    simp [Spliced.ofContent, Chunk.sources]
  tiles := ⟨rfl, Nat.zero_le _, rfl⟩

theorem mem_inOrder {edits : List Edit} {e : Edit} : e ∈ inOrder edits ↔ e ∈ edits :=
  (List.perm_insertionSort _ _).mem_iff

theorem Follows.pass {s : Spliced} {t : Trail} (h : Follows s t) {edits : List Edit}
    (hplaced : WellPlaced s.text edits)
    (hin : ∀ e ∈ edits, ∃ c ∈ s.chunks, c.start ≤ e.range.start ∧ e.range.stop ≤ c.stop) :
    Follows (s.pass edits) (t.pass edits) := by
  obtain ⟨htext, hsources, htiles⟩ := applyPass_spec h.tiles hplaced
  refine ⟨?_, ?_, htiles⟩
  · rw [htext, Trail.pass, Splice.forward_map, h.text, List.map_map]
    congr 1
    refine List.map_congr_left fun e _ => ?_
    simp [Splice.Edit.map, textEdit, Function.comp_def]
  · rw [hsources, Trail.pass, Splice.forward_map, h.sources, List.map_map]
    congr 1
    refine List.map_congr_left fun e he => ?_
    have he' := mem_inOrder.1 he
    have hat := h.at_inside (hplaced.inside e he').1 (hin e he')
    simp [Splice.Edit.map, sourceEdit, hat, Function.comp_def]

/-! ## Origins through a pass -/

theorem mem_sources_of_chunk {s : Spliced} {t : Trail} (h : Follows s t) {start stop : Nat} {origin : ByteRange}
    {name : Text} (hc : .ofMacro start stop origin name ∈ s.chunks) (hne : start < stop) :
    (HafleyScm.Expansion.sources s.chunks)[start]? = some (.minted (some origin)) := by
  have hinside := h.tiles.sources_inside 1 hc (le_refl start) (by simpa [Chunk.stop] using hne)
  have hhead := congrArg (fun l => l[0]?) hinside
  simpa [Chunk.sources, Chunk.start, List.getElem?_take_of_lt, hne] using hhead

theorem pass_names {s : Spliced} {edits : List Edit} (htiles : Tiles 0 s.chunks s.text.length)
    (hplaced : WellPlaced s.text edits) {e : Edit} (he : e ∈ edits) :
    Names (s.pass edits).chunks (invocationOrigin s.chunks e.range e.name).1 := by
  refine finish_names htiles (inOrder edits) ?_ (mem_inOrder.2 he)
  intro e' he'
  have := hplaced.inside e' (mem_inOrder.1 he')
  omega

/-- No origin is lost: one that stands in an edit is that of the edit, and another is copied. -/
theorem names_kept {s : Spliced} {t : Trail} (h : Follows s t) {edits : List Edit} (hplaced : WellPlaced s.text edits)
    (hin : ∀ e ∈ edits, ∃ c ∈ s.chunks, c.start ≤ e.range.start ∧ e.range.stop ≤ c.stop) {start stop : Nat}
    {origin : ByteRange} {name : Text} (hc : .ofMacro start stop origin name ∈ s.chunks) (hne : start < stop) :
    Names (s.pass edits).chunks origin := by
  have hsource := mem_sources_of_chunk h hc hne
  obtain ⟨-, hsources, -⟩ := applyPass_spec h.tiles hplaced
  by_cases hedit : ∃ e ∈ edits, e.range.start ≤ start ∧ start < e.range.stop
  · obtain ⟨e, he, hle, hlt⟩ := hedit
    have hat := h.at_inside (hplaced.inside e he).1 (hin e he)
    rw [h.at_eq] at hat
    have hmem : .minted (some origin) ∈
        ((HafleyScm.Expansion.sources s.chunks).drop e.range.start).take (e.range.stop - e.range.start) := by
      refine List.mem_of_getElem? (i := start - e.range.start) ?_
      rw [List.getElem?_take_of_lt (by omega), List.getElem?_drop, Nat.add_sub_cancel' hle, hsource]
    rw [← position_of_minted hmem hat]
    exact pass_names h.tiles hplaced he
  · have hkept : ∀ e ∈ (inOrder edits).map (sourceEdit s.chunks), start < e.start ∨ e.stop ≤ start := by
      intro e he
      obtain ⟨e', he', rfl⟩ := List.mem_map.1 he
      by_contra hbad
      refine hedit ⟨e', mem_inOrder.1 he', ?_, ?_⟩
      · simp only [sourceEdit] at hbad
        omega
      · simp only [sourceEdit] at hbad
        omega
    refine names_of_source ?_
    rw [hsources]
    exact Splice.mem_forward_of_kept hsource (Nat.zero_le _) hkept

/-- After a pass the chunks name what they named before, and the positions of the pass. -/
theorem names_pass {s : Spliced} {t : Trail} (h : Follows s t) {edits : List Edit} (hplaced : WellPlaced s.text edits)
    (hkept : Kept s.chunks edits) (origin : ByteRange) :
    Names (s.pass edits).chunks origin ↔ Names s.chunks origin ∨ some origin ∈ edits.map fun e => t.at e.range := by
  have hposition : some origin ∈ (edits.map fun e => t.at e.range) ↔
      ∃ e ∈ edits, (invocationOrigin s.chunks e.range e.name).1 = origin := by
    rw [List.mem_map]
    refine exists_congr fun e => and_congr_right fun he => ?_
    rw [h.at_inside (hplaced.inside e he).1 (hkept.inOne e he), Option.some.injEq]
  rw [hposition]
  constructor
  · intro hnew
    rcases names_finish (inOrder edits) hnew with ⟨_, _, _, hnil⟩ | hold | ⟨e, he, hedit⟩
    · cases hnil
    · exact .inl hold
    · exact .inr ⟨e, mem_inOrder.1 he, hedit⟩
  · rintro (⟨start, stop, name, hc⟩ | ⟨e, he, rfl⟩)
    · rcases Nat.eq_or_lt_of_le (h.tiles.bounds hc).2.1 with heq | hlt
      · simp only [Chunk.start, Chunk.stop] at heq
        subst heq
        obtain ⟨start', stop', name', hlt, hc'⟩ := hkept.empty _ _ _ hc
        exact names_kept h hplaced hkept.inOne hc' hlt
      · exact names_kept h hplaced hkept.inOne hc hlt
    · exact pass_names h.tiles hplaced he

/-! ## The bytes of the content -/

/-- A byte that is an original one is that of the content, and a minted one comes from a range of the content. -/
def Sound (content : Text) (b : Byte × Source) : Prop :=
  match b.2 with
  | .original i => content[i]? = some b.1
  | .minted (some origin) => origin.start ≤ origin.stop ∧ origin.stop ≤ content.length
  | .minted none => True

theorem position_sound {content : Text} {l : List (Byte × Source)} (h : ∀ b ∈ l, Sound content b) {origin : ByteRange}
    (hpos : position (l.map Prod.snd) = some origin) :
    origin.start ≤ origin.stop ∧ origin.stop ≤ content.length := by
  cases l with
  | nil => cases hpos
  | cons b rest =>
    obtain ⟨byte, source⟩ := b
    rw [List.map_cons] at hpos
    cases source with
    | original i =>
      by_cases hrest : rest.map Prod.snd = (List.range' (i + 1) (rest.map Prod.snd).length).map .original
      · rw [position, if_pos hrest] at hpos
        cases hpos
        refine ⟨by simp only; omega, ?_⟩
        simp only [List.length_map]
        have hlast : .original (i + rest.length) ∈ (((byte, .original i) :: rest).map Prod.snd) := by
          rw [List.map_cons, hrest, ← List.map_cons (f := Source.original), ← List.range'_succ]
          simp
        obtain ⟨⟨byte', _⟩, hmem, rfl⟩ := List.mem_map.1 hlast
        have := (List.getElem?_eq_some_iff.1 (h _ hmem)).1
        omega
      · rw [position, if_neg hrest] at hpos
        cases hpos
    | minted o =>
      by_cases hrest : ∀ s ∈ rest.map Prod.snd, s = .minted o
      · rw [position, if_pos hrest] at hpos
        subst hpos
        exact h _ List.mem_cons_self
      · rw [position, if_neg hrest] at hpos
        cases hpos

structure SoundTrail (content : Text) (t : Trail) : Prop where
  bytes     : ∀ b ∈ t.bytes, Sound content b
  positions : ∀ origin, some origin ∈ t.positions → origin.start ≤ origin.stop ∧ origin.stop ≤ content.length

theorem soundTrail_ofContent (content : Text) : SoundTrail content (.ofContent content) where
  bytes b hb := by
    obtain ⟨i, hi, rfl⟩ := List.getElem_of_mem hb
    simp only [Trail.ofContent, List.getElem_zip, List.getElem_map, List.getElem_range', Sound]
    simp [Trail.ofContent] at hi
    simp [hi]
  positions origin h := by cases h

theorem SoundTrail.at_sound {content : Text} {t : Trail} (h : SoundTrail content t) {r origin : ByteRange}
    (hat : t.at r = some origin) : origin.start ≤ origin.stop ∧ origin.stop ≤ content.length :=
  position_sound (fun b hb => h.bytes b (List.mem_of_mem_drop (List.mem_of_mem_take hb))) hat

theorem SoundTrail.pass {content : Text} {t : Trail} (h : SoundTrail content t) (edits : List Edit) :
    SoundTrail content (t.pass edits) where
  bytes b hb := by
    rcases Splice.mem_forward hb with hb | ⟨e, he, hb⟩
    · exact h.bytes b hb
    · obtain ⟨e', he', rfl⟩ := List.mem_map.1 he
      obtain ⟨byte, _, rfl⟩ := List.mem_map.1 hb
      cases hat : t.at e'.range with
      | none => trivial
      | some origin => exact h.at_sound hat
  positions origin ho := by
    rcases List.mem_append.1 ho with ho | ho
    · exact h.positions origin ho
    · obtain ⟨e, he, hat⟩ := List.mem_map.1 ho
      exact h.at_sound hat

end HafleyScm.Expansion

/-!
# The span map after any passes (`crates/hafley_scm/src/lang/rust/syn_macro_expansion_defs.rs:55`, `625`)

`passes_exact` reads the map off the chunks that follow the trail. An empty expansion that is followed by another
pass is the run in which it fails (`emptySite_lost`).
-/

namespace HafleyScm.Expansion

/-! ## `macro_sites` -/

theorem addSite_names {seen : List (ByteRange × Text)} {c : Chunk} {origin : ByteRange} :
    origin ∈ (addSite seen c).map Prod.fst ↔ origin ∈ seen.map Prod.fst ∨ Names [c] origin := by
  cases c with
  | verbatim start stop orig => simp [addSite, Names]
  | ofMacro start stop origin' name =>
    have hnames : Names [.ofMacro start stop origin' name] origin ↔ origin = origin' := by simp [Names]
    rw [hnames, addSite]
    by_cases hseen : (seen.any fun site => site.1 = origin') = true
    · rw [if_pos hseen]
      refine ⟨.inl, ?_⟩
      rintro (h | rfl)
      · exact h
      · simpa using hseen
    · rw [if_neg hseen]
      simp

theorem addSite_nodup {seen : List (ByteRange × Text)} (h : (seen.map Prod.fst).Nodup) (c : Chunk) :
    ((addSite seen c).map Prod.fst).Nodup := by
  cases c with
  | verbatim start stop orig => exact h
  | ofMacro start stop origin name =>
    rw [addSite]
    by_cases hseen : (seen.any fun site => site.1 = origin) = true
    · rwa [if_pos hseen]
    · rw [if_neg hseen, List.map_append, List.nodup_append]
      refine ⟨h, by simp, ?_⟩
      rintro a ha b hb rfl
      simp only [List.map_cons, List.map_nil, List.mem_singleton] at hb
      subst hb
      simp_all

theorem macroSites_spec (chunks : List Chunk) (seen : List (ByteRange × Text)) (h : (seen.map Prod.fst).Nodup) :
    (∀ origin, origin ∈ (chunks.foldl addSite seen).map Prod.fst ↔
      origin ∈ seen.map Prod.fst ∨ Names chunks origin) ∧
    ((chunks.foldl addSite seen).map Prod.fst).Nodup := by
  induction chunks generalizing seen with
  | nil => exact ⟨fun origin => by simp [Names], h⟩
  | cons c cs ih =>
    obtain ⟨hmem, hnodup⟩ := ih (addSite seen c) (addSite_nodup h c)
    refine ⟨fun origin => ?_, hnodup⟩
    rw [List.foldl_cons, hmem, addSite_names, or_assoc, ← names_append, List.singleton_append]

/-! ## `map_span` -/

/-- The chunk that holds the first byte of a span is the one the search finds. -/
theorem mapSpan_chunk {b : Nat} {chunks : List Chunk} (h : Tiles 0 chunks b) {c : Chunk} (hc : c ∈ chunks)
    {r : ByteRange} (hstart : c.start ≤ r.start) (hstop : r.start < c.stop) :
    ((Search.binarySearchBy (spanOrder r) chunks).bind fun idx => chunks[idx]?) = some c := by
  obtain ⟨pre, post, rfl⟩ := List.append_of_mem hc
  obtain ⟨hpre, -, hpost⟩ := h.split
  have hget : (pre ++ c :: post)[pre.length]? = some c := by simp
  have hsplits : Search.Splits (spanOrder r) (pre ++ c :: post) pre.length := by
    constructor
    · intro j d hj hd
      have hle : d.start ≤ r.start := by
        rcases Nat.eq_or_lt_of_le hj with rfl | hlt
        · rw [hget] at hd
          cases hd
          exact hstart
        · rw [List.getElem?_append_left hlt] at hd
          have := hpre.bounds (List.mem_of_getElem? hd)
          omega
      rw [spanOrder, if_neg (by omega)]
      split_ifs <;> simp
    · intro j d hj hd
      rw [List.getElem?_append_right (by omega), List.getElem?_cons, if_neg (by omega)] at hd
      have := hpost.bounds (List.mem_of_getElem? hd)
      rw [spanOrder, if_pos (by omega)]
  have heq : spanOrder r c = .eq := by rw [spanOrder, if_neg (by omega), if_neg (by omega)]
  rw [Search.binarySearchBy_eq hsplits hget heq, Option.bind_some, hget]

/-! ## Exactness -/

/-- Original bytes of consecutive offsets are the bytes of the content there. -/
theorem originals_eq {content : Text} {l : List (Byte × Source)} (h : ∀ b ∈ l, Sound content b) {i : Nat}
    (hsrc : l.map Prod.snd = (List.range' i l.length).map .original) :
    l.map Prod.fst = (content.drop i).take l.length := by
  induction l generalizing i with
  | nil => simp
  | cons b rest ih =>
    obtain ⟨byte, source⟩ := b
    rw [List.map_cons, List.length_cons, List.range'_succ, List.map_cons, List.cons.injEq] at hsrc
    obtain ⟨hsource, hrest⟩ := hsrc
    simp only at hsource
    subst hsource
    have hbyte : content[i]? = some byte := h _ List.mem_cons_self
    obtain ⟨hi, hget⟩ := List.getElem?_eq_some_iff.1 hbyte
    rw [List.map_cons, ih (fun b hb => h b (List.mem_cons_of_mem _ hb)) hrest, List.length_cons,
      List.drop_eq_getElem_cons hi, List.take_succ_cons, hget]

/-- The bytes of a span inside a verbatim chunk are those of the content at the span's place there. -/
theorem verbatim_slice {content : Text} {s : Spliced} {t : Trail} (h : Follows s t) (hsound : SoundTrail content t)
    {start stop orig : Nat} (hc : .verbatim start stop orig ∈ s.chunks) {lo hi : Nat} (hlo : start ≤ lo)
    (hhi : hi ≤ stop) (hle : lo ≤ hi) :
    slice s.text ⟨lo, hi⟩ = slice content ⟨orig + (lo - start), orig + (hi - start)⟩ := by
  have hinside := h.tiles.sources_inside (hi - lo) hc hlo
    (by simp only [Chunk.stop]; omega)
  have hbound := (h.tiles.bounds hc).2.2
  have hlen : t.bytes.length = s.text.length := by rw [← h.text, List.length_map]
  have hslice : ((t.bytes.drop lo).take (hi - lo)).length = hi - lo := by
    simp only [List.length_take, List.length_drop, Chunk.stop] at hbound ⊢
    omega
  have hsrc : ((t.bytes.drop lo).take (hi - lo)).map Prod.snd =
      (List.range' (orig + (lo - start)) (hi - lo)).map .original := by
    rw [Nat.sub_zero] at hinside
    rw [List.map_take, List.map_drop, h.sources, hinside, Chunk.sources, ← List.map_drop, ← List.map_take,
      List.drop_range', take_range', mul_one]
    simp only [Chunk.start]
    congr 2
    omega
  have hbytes := originals_eq (l := (t.bytes.drop lo).take (hi - lo))
    (fun b hb => hsound.bytes b (List.mem_of_mem_drop (List.mem_of_mem_take hb))) (by rw [hslice]; exact hsrc)
  rw [List.map_take, List.map_drop, h.text, hslice] at hbytes
  simp only [slice]
  rw [hbytes, show orig + (hi - start) - (orig + (lo - start)) = hi - lo by omega]

theorem exact_of_follows {content : Text} {s : Spliced} {t : Trail} (h : Follows s t) (hsound : SoundTrail content t)
    (hnames : ∀ origin, Names s.chunks origin ↔ some origin ∈ t.positions) : Exact content s t.positions where
  tiles := h.tiles
  verbatim start stop orig hc := by
    have := (h.tiles.bounds hc).2.1
    simpa using verbatim_slice h hsound hc le_rfl le_rfl this
  origins start stop origin name hc := hsound.positions origin ((hnames origin).1 ⟨start, stop, name, hc⟩)
  mapped start stop orig hc r hlo hlt hle hhi := by
    refine ⟨⟨orig + (r.start - start), orig + (r.stop - start)⟩, ?_, rfl, rfl, verbatim_slice h hsound hc hlo hhi hle⟩
    rw [mapSpan, mapSpan_chunk h.tiles hc hlo hlt]
    exact if_neg (show ¬ stop < r.stop by omega)
  sites origin := by
    rw [macroSites, (macroSites_spec s.chunks [] List.nodup_nil).1 origin, ← hnames]
    simp
  once := (macroSites_spec s.chunks [] List.nodup_nil).2

theorem passes_follow {content : Text} {edits : List (List Edit)} {s : Spliced} {t : Trail} (h : Follows s t)
    (hsound : SoundTrail content t) (hnames : ∀ origin, Names s.chunks origin ↔ some origin ∈ t.positions)
    (hruns : PassesFrom Kept s edits) :
    Exact content (edits.foldl Spliced.pass s) (edits.foldl Trail.pass t).positions := by
  induction edits generalizing s t with
  | nil => exact exact_of_follows h hsound hnames
  | cons pass rest ih =>
    obtain ⟨hplaced, hkept, hrest⟩ := hruns
    refine ih (h.pass hplaced hkept.inOne) (hsound.pass pass) ?_ hrest
    intro origin
    rw [names_pass h hplaced hkept origin, hnames, Trail.pass, List.mem_append]

/-- **The span map.** Over any passes whose edits are in bounds, apart from each other and each in one chunk, and
which keep the origins of the empty expansions, the map is exact. -/
theorem passes_exact {content : Text} {edits : List (List Edit)}
    (hruns : PassesFrom Kept (.ofContent content) edits) :
    Exact content (edits.foldl Spliced.pass (.ofContent content))
      (edits.foldl Trail.pass (.ofContent content)).positions := by
  refine passes_follow (follows_ofContent content) (soundTrail_ofContent content) ?_ hruns
  intro origin
  simp [Names, Spliced.ofContent, Trail.ofContent]

/-- A file of two calls, the second of which mints a third. -/
def twoCalls : Text := ascii "e!(); t!();"
def callE : Edit := ⟨⟨0, 5⟩, [], ascii "e"⟩
def callT : Edit := ⟨⟨6, 11⟩, ascii "u!();", ascii "t"⟩

theorem passes_exact_twice :
    Exact twoCalls ([[callT], [callE, ⟨⟨6, 11⟩, ascii "x", ascii "u"⟩]].foldl Spliced.pass (.ofContent twoCalls))
      ([[callT], [callE, ⟨⟨6, 11⟩, ascii "x", ascii "u"⟩]].foldl Trail.pass (.ofContent twoCalls)).positions := by
  refine passes_exact ⟨⟨by decide +kernel, by decide +kernel⟩, ⟨by decide +kernel, ?_⟩,
    ⟨by decide +kernel, by decide +kernel⟩, ⟨by decide +kernel, ?_⟩, trivial⟩
  · intro start origin name hc
    simp [Spliced.ofContent] at hc
  · intro start origin name hc
    have hchunks : ((Spliced.ofContent twoCalls).pass [callT]).chunks =
        [.verbatim 0 6 0, .ofMacro 6 11 ⟨6, 11⟩ (ascii "t")] := by decide +kernel
    rw [hchunks] at hc
    simp only [List.mem_cons, List.not_mem_nil, or_false, reduceCtorEq, false_or, Chunk.ofMacro.injEq] at hc
    omega

/-- The first call expands to nothing, and the second one twice: the site of the first is no longer listed. -/
theorem emptySite_lost :
    ¬ ∀ (content : Text) (edits : List (List Edit)),
      PassesFrom (fun _ _ => True) (.ofContent content) edits →
      Exact content (edits.foldl Spliced.pass (.ofContent content))
        (edits.foldl Trail.pass (.ofContent content)).positions := by
  intro h
  have hruns : PassesFrom (fun _ _ => True) (.ofContent twoCalls)
      [[callE, callT], [⟨⟨1, 6⟩, ascii "x", ascii "u"⟩]] :=
    ⟨⟨by decide +kernel, by decide +kernel⟩, trivial, ⟨by decide +kernel, by decide +kernel⟩, trivial, trivial⟩
  have hsites := (h _ _ hruns).sites ⟨0, 5⟩
  revert hsites
  decide +kernel

end HafleyScm.Expansion
