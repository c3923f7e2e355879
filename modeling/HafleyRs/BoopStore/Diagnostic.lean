import HafleyRs.BoopStore.Mail
import HafleyRs.Lib.Loop
import HafleyRs.Lib.Markers
import HafleyRs.Lib.Utf8

/-!
# Redaction of a diagnostic (`crates/boop-store/src/ident.rs:547`)

| here | there |
| --- | --- |
| `markers`, `isStop` | the marker list (549) and the closure that ends a value (562) |
| `turn`, `redactMarker` | one round of `while let` (558), and all of them |
| `boundaryAt`, `truncate` | the last lines (571) |
| `boundedDiagnostic` | `bounded_diagnostic` (547) |

A text is a list of elements with a character each. The code's own texts are lists of characters; `traced` is the same
run over characters with their places in the input, so that what is left of the input can be told.

A value ends at the first quote, so one that begins with a quote is left whole. The marker `Bearer ` has a space in it,
and where its first part is itself redacted as a value, what stands behind the space is left (`Plain`).
-/

namespace BoopStore.Diagnostic

abbrev Text := List Char

def solidMarkers : List Text := ["api_key=".toList, "password=".toList, "secret=".toList, "token=".toList]

def bearer : Text := "Bearer".toList

def markers : List Text := solidMarkers ++ [bearer ++ [' ']] ++ ["sk-".toList]

def redacted : Text := "[redacted]".toList

def isQuote (c : Char) : Bool := c = '"' || c = '\x27'

def isStop (c : Char) : Bool := isWhitespace c || c = ',' || isQuote c

section
variable {α : Type} (char : α → Char) (inserted : List α)

/-- The text, and where the search goes on. -/
structure Scan (α : Type) where
  clean : List α
  start : Nat

def turn (marker : Text) (s : Scan α) : Except Unit (Loop.Turn (Scan α) (List α)) :=
  match Markers.find char marker (s.clean.drop s.start) with
  | none => .ok (.done s.clean)
  | some (front, _) =>
    let valueStart := s.start + front.length + marker.length
    let valueEnd := valueStart + ((s.clean.drop valueStart).takeWhile fun x => !isStop (char x)).length
    .ok (.next ⟨s.clean.take valueStart ++ inserted ++ s.clean.drop valueEnd, valueStart + inserted.length⟩)

/-- Each round takes a marker off what is searched. -/
def redactMarker (clean : List α) (marker : Text) : Except Unit (List α) :=
  Loop.loop () (turn char inserted marker) (clean.length + 1) ⟨clean, 0⟩

def redact (detail : List α) : Except Unit (List α) := markers.foldlM (redactMarker char inserted) detail

/-- `while !clean.is_char_boundary(end) { end -= 1 }` -/
def boundaryAt (t : Text) : Nat → Nat
  | 0 => 0
  | n + 1 => if (Utf8.cutAt t (n + 1)).isSome then n + 1 else boundaryAt t n

def truncate (clean : List α) : List α :=
  if (Utf8.bytes (clean.map char)).length ≤ 512 then clean
  else
    let cut := Utf8.cutAt (clean.map char) (boundaryAt (clean.map char) 512)
    clean.take ((cut.map fun p => p.1.length).getD 0)

def boundedDiagnostic (detail : List α) : Except Unit (List α) := (redact char inserted detail).map (truncate char)

end

/-- The characters with their places, from `k` on. -/
def tag (k : Nat) (t : Text) : List (Char × Option Nat) := (t.zipIdx k).map fun x => (x.1, some x.2)

def insertedTag : List (Char × Option Nat) := redacted.map (·, none)

def traced (detail : Text) : Except Unit (List (Char × Option Nat)) :=
  boundedDiagnostic Prod.fst insertedTag (tag 0 detail)

/-- How far behind a marker its value begins, and the value: in quotes, or bare. -/
def valueAt : Text → Nat × Text
  | [] => (0, [])
  | c :: rest =>
    if isQuote c then (1, rest.takeWhile (· ≠ c)) else (0, (c :: rest).takeWhile fun c => !isStop c)

/-- No character of a marker's value is in the output. -/
def NothingLeft (detail : Text) (out : List (Char × Option Nat)) : Prop :=
  ∀ front marker rest, marker ∈ markers → detail = front ++ marker ++ rest →
    ∀ x ∈ tag (front.length + marker.length + (valueAt rest).1) (valueAt rest).2, x ∉ out

/-- No value is in quotes, and no `Bearer ` with a value is itself the end of a value. -/
structure Plain (detail : Text) : Prop where
  unquoted : ∀ front marker rest, marker ∈ markers → detail = front ++ marker ++ rest →
    (valueAt rest).1 = 1 → (valueAt rest).2 = []
  bare     : ∀ front marker between rest, marker ∈ solidMarkers ++ [bearer ++ [' ']] →
    detail = front ++ marker ++ between ++ bearer ++ ' ' :: rest → (∀ c ∈ between, isStop c = false) →
      (rest.takeWhile fun c => !isStop c) = []

example : traced "api_key=a token=b, c".toList = .ok (tag 0 "api_key=".toList ++ insertedTag ++
    tag 9 " token=".toList ++ insertedTag ++ tag 17 ", c".toList) := by decide +kernel

/-! ## The rounds are a pass -/

section
variable {α : Type} {char : α → Char} {inserted : List α}

/-- What the rounds come to, from where the search goes on. -/
def Comes (char : α → Char) (inserted : List α) (marker : Text) (s : Scan α) (r : Except Unit (List α)) : Prop :=
  r = .ok (s.clean.take s.start ++ Markers.pass char isStop inserted marker (s.clean.drop s.start))

theorem turn_fine {marker : Text} (hm : marker ≠ []) (s : Scan α) (hs : s.start ≤ s.clean.length) :
    Loop.Fine (fun s : Scan α => s.start ≤ s.clean.length) (fun s => s.clean.length - s.start)
      (Comes char inserted marker) s (turn char inserted marker s) := by
  obtain ⟨clean, start⟩ := s
  obtain ⟨done, todo, rfl, rfl⟩ : ∃ done todo, clean = done ++ todo ∧ done.length = start :=
    ⟨clean.take start, clean.drop start, by simp, by simpa using hs⟩
  rw [turn]
  simp only [List.drop_left]
  cases hfind : Markers.find char marker todo with
  | none =>
    simp only [Loop.Fine, Comes, List.take_left, List.drop_left, Markers.pass_none hfind]
  | some p =>
    obtain ⟨a, b⟩ := p
    obtain ⟨rfl, -⟩ := Markers.find_some hfind
    have hle := Markers.length_le_of_find hfind
    have hpos := List.length_pos_of_ne_nil hm
    obtain ⟨mark, rest, rfl, hmark⟩ : ∃ mark rest, b = mark ++ rest ∧ mark.length = marker.length :=
      ⟨b.take marker.length, b.drop marker.length, by simp, by simpa using hle⟩
    have hstart : done.length + a.length + marker.length = (done ++ a ++ mark).length := by
      simp only [List.length_append, hmark]
    have hclean : done ++ (a ++ (mark ++ rest)) = (done ++ a ++ mark) ++ rest := by simp
    have htail : (done ++ a ++ mark ++ rest).drop ((done ++ a ++ mark).length +
        (rest.takeWhile fun x => !isStop (char x)).length) = Markers.toStop char isStop rest := by
      rw [List.drop_length_add_append]
      have hsplit := List.takeWhile_append_dropWhile (p := fun x => !isStop (char x)) (l := rest)
      conv_lhs => rw [← hsplit]
      exact List.drop_left' (by rw [hsplit])
    have hstop := Markers.toStop_length_le char isStop rest
    simp only [Loop.Fine, hstart, hclean, List.take_left, List.drop_left, htail]
    refine ⟨?_, ?_, ?_⟩
    · simp only [List.length_append]
      omega
    · simp only [List.length_append] at hpos ⊢
      omega
    · intro r hr
      rw [Comes] at hr ⊢
      rw [hr, ← hclean, List.take_left, List.drop_left, Markers.pass_some hm hfind,
        List.take_left' hmark, List.drop_left' hmark]
      have htake : (done ++ a ++ mark ++ inserted ++ Markers.toStop char isStop rest).take
          ((done ++ a ++ mark).length + inserted.length) = done ++ a ++ mark ++ inserted :=
        List.take_left' List.length_append
      have hdrop : (done ++ a ++ mark ++ inserted ++ Markers.toStop char isStop rest).drop
          ((done ++ a ++ mark).length + inserted.length) = Markers.toStop char isStop rest :=
        List.drop_left' List.length_append
      simp only [htake, hdrop]
      simp only [List.append_assoc]

/-- All rounds for a marker are one pass. -/
theorem redactMarker_eq {marker : Text} (hm : marker ≠ []) (clean : List α) :
    redactMarker char inserted clean marker = .ok (Markers.pass char isStop inserted marker clean) := by
  have hrun := @Loop.loop_rule _ _ _ () (turn char inserted marker) _ (clean.length + 1) ⟨clean, 0⟩
    (Comes char inserted marker) (fun s : Scan α => s.clean.length - s.start) (fun s hs => turn_fine hm s hs)
    (Nat.zero_le _) (Nat.lt_succ_self _)
  rw [redactMarker, hrun, List.take_zero, List.drop_zero, List.nil_append]

theorem markers_ne_nil : ∀ marker ∈ markers, marker ≠ [] := by decide

/-- **Redaction ends**, and is a pass for each marker. -/
theorem redact_eq (detail : List α) :
    redact char inserted detail = .ok (Markers.passes char isStop inserted markers detail) := by
  have hall : ∀ (ms : List Text) (detail : List α), (∀ marker ∈ ms, marker ≠ []) →
      ms.foldlM (redactMarker char inserted) detail = .ok (Markers.passes char isStop inserted ms detail) := by
    intro ms
    induction ms with
    | nil => exact fun detail _ => rfl
    | cons marker ms ih =>
      intro detail h
      obtain ⟨hm, hmore⟩ := List.forall_mem_cons.1 h
      rw [List.foldlM_cons, redactMarker_eq hm]
      exact ih _ hmore
  exact hall markers detail markers_ne_nil

/-! ## The cut -/

theorem cutAt_boundaryAt (t : Text) (n : Nat) : ∃ a b, Utf8.cutAt t (boundaryAt t n) = some (a, b) ∧
    boundaryAt t n ≤ n := by
  induction n with
  | zero =>
    refine ⟨[], t, ?_, le_rfl⟩
    rw [boundaryAt, Utf8.cutAt]
  | succ n ih =>
    rw [boundaryAt]
    split
    · rename_i hcut
      obtain ⟨⟨a, b⟩, hab⟩ := Option.isSome_iff_exists.1 hcut
      exact ⟨a, b, hab, le_rfl⟩
    · obtain ⟨a, b, hab, hle⟩ := ih
      exact ⟨a, b, hab, hle.trans n.le_succ⟩

theorem truncate_short {clean : List α} (h : (Utf8.bytes (clean.map char)).length ≤ 512) :
    truncate char clean = clean := by
  rw [truncate, if_pos h]

/-- At most 512 bytes are left, cut between two characters. -/
theorem truncate_spec (clean : List α) : truncate char clean <+: clean ∧
    (Utf8.bytes ((truncate char clean).map char)).length ≤ 512 := by
  by_cases h : (Utf8.bytes (clean.map char)).length ≤ 512
  · rw [truncate_short h]
    exact ⟨List.prefix_rfl, h⟩
  · obtain ⟨a, b, hcut, hle⟩ := cutAt_boundaryAt (clean.map char) 512
    obtain ⟨hsplit, hlen⟩ := Utf8.cutAt_some hcut
    rw [truncate, if_neg h]
    simp only [hcut, Option.map_some, Option.getD_some]
    refine ⟨List.take_prefix _ _, ?_⟩
    rw [List.map_take, hsplit, List.take_left, hlen]
    exact hle

theorem truncate_map {β : Type} {char' : β → Char} {f : α → β} (h : ∀ e, char' (f e) = char e) (clean : List α) :
    truncate char' (clean.map f) = (truncate char clean).map f := by
  have hchar : (clean.map f).map char' = clean.map char := by
    rw [List.map_map]
    exact List.map_congr_left fun e _ => h e
  rw [truncate, truncate, hchar]
  split
  · rfl
  · rw [List.map_take]

end

/-! ## Places -/

theorem tag_cons (k : Nat) (c : Char) (t : Text) : tag k (c :: t) = (c, some k) :: tag (k + 1) t := by
  rw [tag, List.zipIdx_cons, List.map_cons, ← tag]

theorem tag_append (k : Nat) (a b : Text) : tag k (a ++ b) = tag k a ++ tag (k + a.length) b := by
  rw [tag, List.zipIdx_append, List.map_append, ← tag, ← tag]

@[simp] theorem tag_map_fst (k : Nat) (t : Text) : (tag k t).map Prod.fst = t := by
  rw [tag, List.map_map]
  exact List.zipIdx_map_fst k t

@[simp] theorem tag_length (k : Nat) (t : Text) : (tag k t).length = t.length := by
  rw [tag, List.length_map, List.length_zipIdx]

theorem tag_nodup (k : Nat) (t : Text) : (tag k t).Nodup := by
  refine List.Nodup.of_map Prod.snd ?_
  have hplaces : (tag k t).map Prod.snd = (List.range' k t.length).map some := by
    rw [tag, List.map_map, ← List.zipIdx_map_snd k t, List.map_map]
    rfl
  rw [hplaces, List.nodup_map_iff (Option.some_injective _)]
  exact List.nodup_range'

theorem tag_takeWhile (p : Char → Bool) (k : Nat) (t : Text) :
    (tag k t).takeWhile (fun x => p x.1) = tag k (t.takeWhile p) := by
  induction t generalizing k with
  | nil => rfl
  | cons c t ih =>
    rw [tag_cons]
    cases hc : p c with
    | true => simp [hc, tag_cons, ih]
    | false => simp [hc, tag]

/-- What is put in has no place. -/
theorem not_inserted {k : Nat} {t : Text} {x : Char × Option Nat} (h : x ∈ tag k t) : x ∉ insertedTag := by
  intro hin
  obtain ⟨c, -, rfl⟩ := List.mem_map.1 hin
  obtain ⟨y, -, heq⟩ := List.mem_map.1 h
  cases congrArg Prod.snd heq

/-! ## The three stages -/

abbrev Traced := List (Char × Option Nat)

def solid (xs : Traced) : Traced := Markers.passes Prod.fst isStop insertedTag solidMarkers xs

def afterBearer (xs : Traced) : Traced := Markers.pass Prod.fst isStop insertedTag (bearer ++ [' ']) (solid xs)

def cleaned (xs : Traced) : Traced := Markers.passes Prod.fst isStop insertedTag ["sk-".toList] (afterBearer xs)

theorem passes_markers (xs : Traced) : Markers.passes Prod.fst isStop insertedTag markers xs = cleaned xs := by
  rw [markers, Markers.passes_append, Markers.passes_append]
  rfl

theorem unstopped_of_all {t : Text} (h : (t.all fun c => !isStop c) = true) : ∀ c ∈ t, isStop c = false := by
  simpa using h

theorem solid_solid : ∀ marker ∈ solidMarkers, Markers.Solid isStop marker := by
  have hall : (solidMarkers.all fun marker => !marker.isEmpty && marker.all fun c => !isStop c) = true := by
    decide +kernel
  intro marker hin
  have hmarker := List.all_eq_true.1 hall marker hin
  rw [Bool.and_eq_true] at hmarker
  exact ⟨by simpa using hmarker.1, unstopped_of_all hmarker.2⟩

theorem sk_solid : ∀ marker ∈ ["sk-".toList], Markers.Solid isStop marker := by
  intro marker hin
  rw [List.mem_singleton.1 hin]
  exact ⟨by decide, unstopped_of_all (by decide +kernel)⟩

theorem solid_ne_nil : ∀ marker ∈ solidMarkers, marker ≠ [] := fun marker h => (solid_solid marker h).1

theorem sk_ne_nil : ∀ marker ∈ ["sk-".toList], marker ≠ [] := fun marker h => (sk_solid marker h).1

theorem bearer_ne_nil : bearer ++ [' '] ≠ [] := by simp

theorem bearer_unstopped : ∀ c ∈ bearer, isStop c = false := unstopped_of_all (by decide +kernel)

theorem inserted_unstopped : Markers.Unstopped Prod.fst isStop insertedTag := by
  intro x hx
  obtain ⟨c, hc, rfl⟩ := List.mem_map.1 hx
  exact unstopped_of_all (t := redacted) (by decide +kernel) c hc

/-- What is put in does not end in `Bearer`. -/
theorem not_bearer (z : Traced) : ¬bearer <:+ (z ++ insertedTag).map Prod.fst := by
  rintro ⟨t, ht⟩
  have hlast := congrArg List.getLast? ht
  have hbearer : bearer.getLast? = some 'r' := by decide +kernel
  have hinserted : (insertedTag.map Prod.fst).getLast? = some ']' := by decide +kernel
  rw [List.map_append, List.getLast?_append, List.getLast?_append, hbearer, hinserted] at hlast
  cases hlast

theorem mem_afterBearer {xs : Traced} {x : Char × Option Nat} (h : x ∈ afterBearer xs) :
    x ∈ solid xs ∨ x ∈ insertedTag :=
  Markers.mem_pass bearer_ne_nil h

theorem mem_solid {xs : Traced} {x : Char × Option Nat} (h : x ∈ solid xs) : x ∈ xs ∨ x ∈ insertedTag :=
  Markers.mem_passes solid_ne_nil h

theorem mem_cleaned {xs : Traced} {x : Char × Option Nat} (h : x ∈ cleaned xs) : x ∈ afterBearer xs ∨ x ∈ insertedTag :=
  Markers.mem_passes sk_ne_nil h

/-! ## What is left out -/

section
variable {p f r : Traced} {x : Char × Option Nat}

/-- The word around a marker, with what stands before and behind it. -/
theorem exists_around (p f r : Traced) (hf : Markers.Unstopped Prod.fst isStop f) :
    ∃ a u v b, p = a ++ u ∧ r = v ++ b ∧ Markers.Ends Prod.fst isStop a ∧ Markers.Starts Prod.fst isStop b ∧
      Markers.Unstopped Prod.fst isStop (u ++ f ++ v) ∧ v = r.takeWhile fun x => !isStop x.1 := by
  obtain ⟨a, u, rfl, ha, hu⟩ := Markers.exists_word Prod.fst isStop p
  refine ⟨a, u, _, Markers.toStop Prod.fst isStop r, rfl, (List.takeWhile_append_dropWhile).symm, ha,
    Markers.starts_toStop Prod.fst isStop r, ?_, rfl⟩
  exact (hu.append hf).append (Markers.unstopped_takeWhile Prod.fst isStop r)

theorem unstopped_of_map {marker : Text} (hf : f.map Prod.fst = marker) (h : ∀ c ∈ marker, isStop c = false) :
    Markers.Unstopped Prod.fst isStop f := by
  intro x hx
  exact h _ (hf ▸ List.mem_map_of_mem hx)

/-- An element of the value is nowhere else. -/
theorem value_apart {a u v b : Traced} (hnodup : (a ++ u ++ f ++ (v ++ b)).Nodup) (hx : x ∈ v) :
    x ∉ a ∧ x ∉ b ∧ ∀ n ≤ u.length + f.length, x ∉ (u ++ f ++ v).take n := by
  obtain ⟨-, hvb, hfront⟩ := List.nodup_append.1 hnodup
  have hout : x ∉ a ++ u ++ f := fun h => hfront x h x (List.mem_append_left _ hx) rfl
  refine ⟨fun h => hout (by simp [h]), fun h => (List.nodup_append.1 hvb).2.2 x hx x h rfl, fun n hn h => ?_⟩
  rw [List.take_append_of_le_length (by simpa using hn)] at h
  have hin := List.mem_of_mem_take h
  refine hout ?_
  rw [List.append_assoc]
  exact List.mem_append_right _ hin

/-- **Behind a marker without a space** the bare value is left out by the first passes. -/
theorem not_mem_solid {marker : Text} (hin : marker ∈ solidMarkers) (hf : f.map Prod.fst = marker)
    (hnodup : (p ++ f ++ r).Nodup) (hx : x ∈ r.takeWhile fun x => !isStop x.1) (hins : x ∉ insertedTag) :
    x ∉ solid (p ++ f ++ r) := by
  obtain ⟨a, u, v, b, rfl, rfl, ha, hb, hword, hv⟩ :=
    exists_around p f r (unstopped_of_map hf (solid_solid marker hin).2)
  rw [← hv] at hx
  obtain ⟨hxa, hxb, hxw⟩ := value_apart hnodup hx
  have hlen : f.length = marker.length := by rw [← hf, List.length_map]
  have hsplit : a ++ u ++ f ++ (v ++ b) = a ++ ((u ++ f ++ v) ++ b) := by simp
  rw [solid, hsplit, Markers.passes_append_ends solid_solid ha, Markers.passes_append_starts solid_solid hb]
  obtain ⟨n, hn, hshort⟩ := Markers.passes_marker solid_ne_nil hin hword inserted_unstopped rfl hf
  intro h
  rcases List.mem_append.1 h with h | h
  · exact (mem_solid h).elim hxa hins
  · rcases List.mem_append.1 h with h | h
    · exact (hshort.mem h).elim (hxw n (by omega)) hins
    · exact (mem_solid h).elim hxb hins

/-- **Behind `sk-`** by the last pass. -/
theorem not_mem_sk (hf : f.map Prod.fst = "sk-".toList) (hnodup : (p ++ f ++ r).Nodup)
    (hx : x ∈ r.takeWhile fun x => !isStop x.1) (hins : x ∉ insertedTag) : x ∉ cleaned (p ++ f ++ r) := by
  obtain ⟨a, u, v, b, rfl, rfl, ha, hb, hword, hv⟩ :=
    exists_around p f r (unstopped_of_map hf (sk_solid _ List.mem_cons_self).2)
  rw [← hv] at hx
  obtain ⟨hxa, hxb, hxw⟩ := value_apart hnodup hx
  have hlen : f.length = "sk-".toList.length := by rw [← hf, List.length_map]
  have hsplit : a ++ u ++ f ++ (v ++ b) = a ++ ((u ++ f ++ v) ++ b) := by simp
  have hpassed : Markers.Passed insertedTag (u ++ f ++ v) (solid (u ++ f ++ v)) :=
    Markers.Passed.passes (.inl rfl) solid_ne_nil hword inserted_unstopped
  have haends : Markers.Ends Prod.fst isStop (Markers.passes Prod.fst isStop insertedTag solidMarkers a) :=
    Markers.Ends.passes solid_solid ha
  have hbstarts : Markers.Starts Prod.fst isStop (Markers.passes Prod.fst isStop insertedTag solidMarkers b) :=
    hb.passes solid_ne_nil
  obtain ⟨a', w', b', hpass, ha', hb', hw', hmema, hmemb⟩ := Markers.pass_last_split (c := ' ') (by decide)
    bearer_unstopped (by decide) not_bearer haends
    (hpassed.unstopped hword inserted_unstopped) hbstarts
  have hshort : ∃ n ≤ u.length + f.length, Markers.Shortened insertedTag (u ++ f ++ v) n
      (Markers.passes Prod.fst isStop insertedTag ["sk-".toList] w') := by
    have hword' : Markers.Passed insertedTag (u ++ f ++ v) w' := by
      rcases hw' with rfl | rfl
      · exact hpassed
      · exact .inr ⟨0, [], by simp, by simp⟩
    obtain ⟨n, hn, hn'⟩ := hword'.pass_marker (sk_ne_nil _ List.mem_cons_self) hword inserted_unstopped rfl hf
    exact ⟨n, by omega, hn'⟩
  obtain ⟨n, hn, hshort⟩ := hshort
  rw [cleaned, afterBearer, hsplit, solid, Markers.passes_append_ends solid_solid ha,
    Markers.passes_append_starts solid_solid hb, ← List.append_assoc]
  rw [solid] at hpass
  rw [hpass, List.append_assoc, Markers.passes_append_ends sk_solid ha', Markers.passes_append_starts sk_solid hb']
  intro h
  rcases List.mem_append.1 h with h | h
  · rcases Markers.mem_passes sk_ne_nil h with h | h
    · exact (hmema x h).elim (fun h => (mem_solid h).elim hxa hins) hins
    · exact hins h
  · rcases List.mem_append.1 h with h | h
    · exact (hshort.mem h).elim (hxw n hn) hins
    · rcases Markers.mem_passes sk_ne_nil h with h | h
      · exact (hmemb x h).elim (fun h => (mem_solid h).elim hxb hins) hins
      · exact hins h

/-- The last character of a marker is not in `Bearer`. -/
theorem solid_last : ∀ marker ∈ solidMarkers, ∃ start, marker = start ++ ['='] := by
  intro marker hin
  refine ⟨marker.dropLast, ?_⟩
  revert marker
  decide +kernel

theorem afterBearer_append {xs ys : Traced} {d : Char × Option Nat} (hd : isStop d.1 = true) :
    afterBearer (xs ++ d :: ys) = afterBearer xs ++ d ::
      (if d.1 = ' ' ∧ bearer <:+ (afterBearer xs).map Prod.fst then
        insertedTag ++ Markers.pass Prod.fst isStop insertedTag (bearer ++ [' '])
          (Markers.toStop Prod.fst isStop (solid ys))
      else afterBearer ys) := by
  rw [afterBearer, solid, Markers.passes_append_stop solid_solid hd]
  exact Markers.pass_append_last (by decide) bearer_unstopped hd not_bearer

/-- No marker without a space stands in front of `Bearer` in its word. -/
theorem solid_word {u g : Traced} (hg : g.map Prod.fst = bearer)
    (h : ∀ marker ∈ solidMarkers, ∀ a m b, u = a ++ m ++ b → m.map Prod.fst ≠ marker) : solid (u ++ g) = u ++ g := by
  refine Markers.passes_of_find fun marker hin => ?_
  cases hfind : Markers.find Prod.fst marker (u ++ g) with
  | none => rfl
  | some q =>
    exfalso
    obtain ⟨hsplit, more, hmore⟩ := Markers.find_some hfind
    obtain ⟨start, rfl⟩ := solid_last marker hin
    obtain ⟨m, b, hb, hm, -⟩ := List.map_eq_append_iff.1 hmore.symm
    obtain ⟨m', last, rfl, -, hlast⟩ := List.map_eq_append_iff.1 hm
    obtain ⟨e, rfl, hchar⟩ := List.map_eq_singleton_iff.1 hlast
    have hwhole : u ++ g = (q.1 ++ m' ++ [e]) ++ b := by rw [hsplit, hb]; simp
    rcases List.append_eq_append_iff.1 hwhole with ⟨rest, hrest, hg'⟩ | ⟨rest, hu, -⟩
    · rcases List.eq_nil_or_concat' rest with rfl | ⟨rest, e', rfl⟩
      · rw [List.append_nil] at hrest
        exact h _ hin q.1 (m' ++ [e]) [] (by rw [← hrest]; simp) hm
      · obtain ⟨-, heq⟩ := List.append_inj' (hrest.trans (List.append_assoc _ _ _).symm) rfl
        obtain rfl : e = e' := by simpa using heq
        have hout : ('=' : Char) ∉ bearer := by decide
        rw [← hg, hg', ← hchar] at hout
        exact hout (List.mem_map_of_mem (by simp))
    · exact h _ hin q.1 (m' ++ [e]) rest (by rw [hu]; simp) hm

theorem space_stop {d : Char × Option Nat} (h : d.1 = ' ') : isStop d.1 = true := by
  rw [h]
  decide

/-- `Bearer` stays where no marker stands in front of it in its word, and no `Bearer ` in front of the word. -/
theorem bearer_stays {g : Traced} (hg : g.map Prod.fst = bearer)
    (hsolid : ∀ marker ∈ solidMarkers, ∀ a m b, p = a ++ m ++ b → m.map Prod.fst = marker →
      ¬Markers.Unstopped Prod.fst isStop b)
    (hbearer : ∀ a g' d b, p = a ++ g' ++ d :: b → g'.map Prod.fst = bearer → d.1 = ' ' →
      ¬Markers.Unstopped Prod.fst isStop b) :
    bearer <:+ (afterBearer (p ++ g)).map Prod.fst := by
  obtain ⟨a, u, rfl, ha, hu⟩ := Markers.exists_word Prod.fst isStop p
  have hword : Markers.Unstopped Prod.fst isStop (u ++ g) := hu.append (unstopped_of_map hg bearer_unstopped)
  have hsame : solid (u ++ g) = u ++ g := by
    refine solid_word hg fun marker hin a' m b heq hm => hsolid marker hin (a ++ a') m b (by rw [heq]; simp) hm ?_
    exact hu.mono (by rw [heq]; simp)
  have halone : afterBearer (u ++ g) = u ++ g := by
    rw [afterBearer, hsame]
    exact Markers.pass_last_alone (by decide) hword
  rcases List.eq_nil_or_concat' a with rfl | ⟨a, d, rfl⟩
  · rw [List.nil_append, halone, List.map_append, hg]
    exact List.suffix_append _ _
  · have hd : isStop d.1 = true := ha d (by simp)
    rw [List.append_assoc, List.append_assoc, List.singleton_append, afterBearer_append hd, if_neg, halone,
      List.map_append, List.map_cons, List.map_append, hg]
    · exact ⟨(afterBearer a).map Prod.fst ++ d.1 :: u.map Prod.fst, by simp⟩
    · -- the `Bearer` in front would be one of the input
      rintro ⟨hspace, hsuffix⟩
      have hin := Markers.suffix_of_passes (by decide) bearer_unstopped not_bearer solid_ne_nil
        (Markers.suffix_of_pass (by decide) bearer_unstopped not_bearer bearer_ne_nil hsuffix)
      obtain ⟨t, ht⟩ := hin
      obtain ⟨a', g', rfl, -, hg'⟩ := List.map_eq_append_iff.1 ht.symm
      exact hbearer a' g' d u (by simp) hg' hspace hu

/-- **Behind a `Bearer ` that stays** the bare value is left out. -/
theorem not_mem_bearer {xs : Traced} {d : Char × Option Nat} (hd : d.1 = ' ')
    (hstays : bearer <:+ (afterBearer xs).map Prod.fst) (hnodup : (xs ++ d :: r).Nodup)
    (hx : x ∈ r.takeWhile fun x => !isStop x.1) (hins : x ∉ insertedTag) : x ∉ cleaned (xs ++ d :: r) := by
  have hsplit : (r.takeWhile fun x => !isStop x.1) ++ Markers.toStop Prod.fst isStop r = r :=
    List.takeWhile_append_dropWhile
  have hv := Markers.unstopped_takeWhile Prod.fst isStop r
  have hb := Markers.starts_toStop Prod.fst isStop r
  obtain ⟨-, hdr, hfront⟩ := List.nodup_append.1 hnodup
  obtain ⟨hdr, hr⟩ := List.nodup_cons.1 hdr
  have hin : x ∈ r := List.takeWhile_subset _ hx
  have hrest : Markers.toStop Prod.fst isStop (solid r) =
      Markers.toStop Prod.fst isStop (solid (Markers.toStop Prod.fst isStop r)) := by
    have hvpassed : Markers.Passed insertedTag (r.takeWhile fun x => !isStop x.1)
        (solid (r.takeWhile fun x => !isStop x.1)) :=
      Markers.Passed.passes (.inl rfl) solid_ne_nil hv inserted_unstopped
    conv_lhs => rw [← hsplit]
    rw [solid, Markers.passes_append_starts solid_solid hb]
    exact Markers.toStop_word (hvpassed.unstopped hv inserted_unstopped)
  have hbehind : x ∉ Markers.toStop Prod.fst isStop r := by
    rw [← hsplit] at hr
    exact fun h => (List.nodup_append.1 hr).2.2 x hx x h rfl
  intro h
  refine (mem_cleaned h).elim (fun h => ?_) hins
  rw [afterBearer_append (space_stop hd), if_pos ⟨hd, hstays⟩, hrest] at h
  rcases List.mem_append.1 h with h | h
  · refine (mem_afterBearer h).elim (fun h => (mem_solid h).elim (fun h => hfront x h x ?_ rfl) hins) hins
    exact List.mem_cons_of_mem _ hin
  · rcases List.mem_cons.1 h with rfl | h
    · exact hdr hin
    · rcases List.mem_append.1 h with h | h
      · exact hins h
      · refine (Markers.mem_pass bearer_ne_nil h).elim (fun h => ?_) hins
        exact (mem_solid ((List.dropWhile_suffix _).subset h)).elim hbehind hins

/-! ## What is left -/

/-- The first character behind a stop is left, unless the stop is the space of a `Bearer ` that stays. -/
theorem first_left {xs ys : Traced} {d : Char × Option Nat} (hd : isStop d.1 = true)
    (h : ¬(d.1 = ' ' ∧ bearer <:+ (afterBearer xs).map Prod.fst)) : x ∈ cleaned (xs ++ d :: x :: ys) := by
  have hhead : (Markers.passes Prod.fst isStop insertedTag ["sk-".toList] (afterBearer (x :: ys))).head? = some x := by
    rw [Markers.head?_passes sk_ne_nil, afterBearer, Markers.head?_pass bearer_ne_nil, solid,
      Markers.head?_passes solid_ne_nil]
    rfl
  rw [cleaned, afterBearer_append hd, if_neg h, Markers.passes_append_stop sk_solid hd]
  exact List.mem_append_right _ (List.mem_cons_of_mem _ (List.mem_of_head? hhead))

/-- A `Bearer` behind a marker without a space, in one word, is left out. -/
theorem bearer_lost_solid {marker : Text} (hin : marker ∈ solidMarkers) (hf : f.map Prod.fst = marker)
    (hr : Markers.Unstopped Prod.fst isStop r) : ¬bearer <:+ (afterBearer (p ++ f ++ r)).map Prod.fst := by
  intro hsuffix
  have hsolid := Markers.suffix_of_pass (by decide) bearer_unstopped not_bearer bearer_ne_nil hsuffix
  obtain ⟨a, u, rfl, ha, hu⟩ := Markers.exists_word Prod.fst isStop p
  have hword : Markers.Unstopped Prod.fst isStop (u ++ f ++ r) :=
    (hu.append (unstopped_of_map hf (solid_solid marker hin).2)).append hr
  obtain ⟨n, -, t, ht, -⟩ := Markers.passes_marker solid_ne_nil hin hword inserted_unstopped rfl hf
  have hsplit : a ++ u ++ f ++ r = a ++ (u ++ f ++ r) := by simp
  rw [hsplit, solid, Markers.passes_append_ends solid_solid ha, ht, ← List.append_assoc] at hsolid
  exact not_bearer _ hsolid

/-- So is one that is the value of a `Bearer ` that stays. -/
theorem bearer_lost_bearer {xs : Traced} {d : Char × Option Nat} (hd : d.1 = ' ')
    (hstays : bearer <:+ (afterBearer xs).map Prod.fst) (hr : Markers.Unstopped Prod.fst isStop r) :
    ¬bearer <:+ (afterBearer (xs ++ d :: r)).map Prod.fst := by
  have hpassed : Markers.Passed insertedTag r (solid r) :=
    Markers.Passed.passes (.inl rfl) solid_ne_nil hr inserted_unstopped
  have hnone : Markers.toStop Prod.fst isStop (solid r) = [] := by
    have hword : Markers.toStop Prod.fst isStop (solid r ++ []) = Markers.toStop Prod.fst isStop [] :=
      Markers.toStop_word (hpassed.unstopped hr inserted_unstopped)
    rw [List.append_nil] at hword
    rw [hword]
    rfl
  rw [afterBearer_append (space_stop hd), if_pos ⟨hd, hstays⟩, hnone, Markers.pass_nil, List.append_nil,
    ← List.singleton_append, ← List.append_assoc]
  exact not_bearer _

end

/-! ## Every value of a text -/

section
variable {detail : Text}

theorem valueAt_bare {c : Char} {rest : Text} (h : isQuote c = false) :
    valueAt (c :: rest) = (0, (c :: rest).takeWhile fun c => !isStop c) := by
  rw [valueAt, if_neg (by simp [h])]

theorem valueAt_quoted {c : Char} {rest : Text} (h : isQuote c = true) :
    valueAt (c :: rest) = (1, rest.takeWhile (· ≠ c)) := by
  rw [valueAt, if_pos h]

theorem isQuote_stop {c : Char} (h : isQuote c = true) : isStop c = true := by
  rw [isStop, h, Bool.or_true]

/-- Where no value is in quotes, it is the bare one. -/
theorem mem_value {front marker rest : Text} {x : Char × Option Nat} (hdetail : detail = front ++ marker ++ rest)
    (hin : marker ∈ markers) (h : Plain detail)
    (hx : x ∈ tag (front.length + marker.length + (valueAt rest).1) (valueAt rest).2) :
    x ∈ (tag (front.length + marker.length) rest).takeWhile fun x => !isStop x.1 := by
  cases rest with
  | nil => cases hx
  | cons c rest =>
    cases hc : isQuote c with
    | true =>
      have hempty := h.unquoted front marker (c :: rest) hin hdetail (by rw [valueAt_quoted hc])
      rw [hempty] at hx
      cases hx
    | false =>
      rw [valueAt_bare hc] at hx
      rwa [tag_takeWhile (fun c => !isStop c)]

theorem nothing_left_of_plain (h : Plain detail) : NothingLeft detail (cleaned (tag 0 detail)) := by
  intro front marker rest hin hdetail x hx hmem
  have hvalue := mem_value hdetail hin h hx
  have hins := not_inserted (List.takeWhile_subset _ hvalue)
  have hnodup := tag_nodup 0 detail
  have hsplit : tag 0 detail = tag 0 front ++ tag front.length marker ++ tag (front.length + marker.length) rest := by
    rw [hdetail, tag_append, tag_append, Nat.zero_add, List.length_append, Nat.zero_add]
  rw [hsplit] at hnodup hmem
  rw [markers, List.mem_append, List.mem_append, List.mem_singleton, List.mem_singleton] at hin
  rcases hin with (hin | rfl) | rfl
  · refine not_mem_solid hin (tag_map_fst _ _) hnodup hvalue hins ?_
    exact (mem_afterBearer ((mem_cleaned hmem).resolve_right hins)).resolve_right hins
  · -- the marker is `Bearer` and a space
    have hsome : (rest.takeWhile fun c => !isStop c) ≠ [] := by
      intro hnil
      rw [tag_takeWhile (fun c => !isStop c), hnil] at hvalue
      cases hvalue
    have hstays : bearer <:+ (afterBearer (tag 0 front ++ tag front.length bearer)).map Prod.fst := by
      refine bearer_stays (tag_map_fst _ _) ?_ ?_
      · intro marker hin a m b hfront hm hb
        have hchars := congrArg (List.map Prod.fst) hfront
        rw [tag_map_fst, List.map_append, List.map_append, hm] at hchars
        refine hsome (h.bare (a.map Prod.fst) marker (b.map Prod.fst) rest (List.mem_append_left _ hin) ?_ ?_)
        · rw [hdetail, hchars]
          simp
        · exact List.forall_mem_map.2 hb
      · intro a g d b hfront hg hd hb
        have hchars := congrArg (List.map Prod.fst) hfront
        rw [tag_map_fst, List.map_append, List.map_append, List.map_cons, hg, hd] at hchars
        refine hsome (h.bare (a.map Prod.fst) (bearer ++ [' ']) (b.map Prod.fst) rest (by simp) ?_ ?_)
        · rw [hdetail, hchars]
          simp
        · exact List.forall_mem_map.2 hb
    rw [tag_append front.length bearer, ← List.append_assoc, tag_cons, List.append_assoc,
      List.cons_append] at hnodup hmem
    exact not_mem_bearer rfl hstays hnodup hvalue hins hmem
  · exact not_mem_sk (tag_map_fst _ _) hnodup hvalue hins hmem

theorem tag_split (front : Text) (d c : Char) (rest : Text) : tag 0 (front ++ d :: c :: rest) =
    tag 0 front ++ (d, some front.length) :: (c, some (front.length + 1)) :: tag (front.length + 2) rest := by
  rw [tag_append, tag_cons, tag_cons, Nat.zero_add]

/-- A `Bearer ` that is left out leaves its value. -/
theorem left_of_lost {front rest : Text} {c : Char} (hc : isStop c = false)
    (hlost : ¬bearer <:+ (afterBearer (tag 0 (front ++ bearer))).map Prod.fst)
    (hdetail : detail = front ++ (bearer ++ [' ']) ++ c :: rest) : ¬NothingLeft detail (cleaned (tag 0 detail)) := by
  intro h
  have hquote : isQuote c = false := by
    rw [Bool.eq_false_iff]
    intro hq
    rw [isQuote_stop hq] at hc
    cases hc
  have hvalue := h front (bearer ++ [' ']) (c :: rest) (by simp [markers]) hdetail
    (c, some ((front ++ bearer).length + 1)) (by
      rw [valueAt_bare hquote, List.takeWhile_cons_of_pos (by simp [hc]), tag_cons]
      exact List.mem_cons.2 (.inl (by simp [Nat.add_assoc])))
  have hsplit : detail = (front ++ bearer) ++ ' ' :: c :: rest := by
    rw [hdetail]
    simp
  rw [hsplit, tag_split] at hvalue
  exact hvalue (first_left (space_stop rfl) fun hcond => hlost hcond.2)

theorem plain_of_nothing_left (h : NothingLeft detail (cleaned (tag 0 detail))) : Plain detail := by
  constructor
  · intro front marker rest hin hdetail hquoted
    by_contra hvalue
    cases rest with
    | nil => exact hvalue rfl
    | cons q rest =>
      cases hq : isQuote q with
      | false =>
        rw [valueAt_bare hq] at hquoted
        cases hquoted
      | true =>
        rw [valueAt_quoted hq] at hvalue
        cases rest with
        | nil => exact hvalue rfl
        | cons c rest =>
          have hc : decide (c ≠ q) = true := by
            by_contra hc
            exact hvalue (List.takeWhile_cons_of_neg (p := fun x => decide (x ≠ q)) hc)
          have hleft := h front marker (q :: c :: rest) hin hdetail (c, some ((front ++ marker).length + 1)) (by
            simp only [valueAt_quoted hq]
            rw [List.takeWhile_cons_of_pos (p := fun x => decide (x ≠ q)) hc, tag_cons]
            exact List.mem_cons.2 (.inl (by simp)))
          rw [hdetail, tag_split] at hleft
          refine hleft (first_left (isQuote_stop hq) ?_)
          rintro ⟨rfl, -⟩
          revert hq
          decide
  · intro front marker between rest hin hdetail hbetween
    by_contra hvalue
    cases rest with
    | nil => exact hvalue rfl
    | cons c rest =>
      have hc : isStop c = false := by
        rw [Bool.eq_false_iff]
        intro hc
        exact hvalue (List.takeWhile_cons_of_neg (by simp [hc]))
      have hword : ∀ k, Markers.Unstopped Prod.fst isStop (tag k (between ++ bearer)) := by
        intro k
        refine unstopped_of_map (tag_map_fst _ _) fun c hc => ?_
        exact (List.mem_append.1 hc).elim (hbetween c) (bearer_unstopped c)
      rcases List.mem_append.1 hin with hin | hin
      · refine @left_of_lost detail (front ++ marker ++ between) rest c hc ?_ (by rw [hdetail]; simp) h
        rw [List.append_assoc (front ++ marker), tag_append, tag_append]
        exact bearer_lost_solid hin (tag_map_fst _ _) (hword _)
      · rw [List.mem_singleton.1 hin] at hdetail
        by_cases hstays : bearer <:+ (afterBearer (tag 0 (front ++ bearer))).map Prod.fst
        · refine @left_of_lost detail (front ++ (bearer ++ [' ']) ++ between) rest c hc ?_ (by rw [hdetail]; simp) h
          have hsplit : front ++ (bearer ++ [' ']) ++ between ++ bearer =
              (front ++ bearer) ++ ' ' :: (between ++ bearer) := by simp
          rw [hsplit, tag_append, tag_cons]
          exact bearer_lost_bearer rfl hstays (hword _)
        · -- the first `Bearer ` is left out, and the second is its value
          cases hfirst : between ++ bearer with
          | nil => simp [bearer] at hfirst
          | cons c' more =>
            have hc' : isStop c' = false := hword 0 (c', some 0) (by rw [hfirst, tag_cons]; exact List.mem_cons_self)
            refine @left_of_lost detail front (more ++ ' ' :: c :: rest) c' hc' hstays ?_ h
            rw [hdetail, ← List.cons_append, ← hfirst]
            simp

end

/-- The run over characters with their places is the code's own. -/
theorem boundedDiagnostic_traced {detail : Text} {out : Traced} (h : traced detail = .ok out) :
    boundedDiagnostic id redacted detail = .ok (out.map Prod.fst) := by
  have hplain : Markers.passes id isStop redacted markers detail = (cleaned (tag 0 detail)).map Prod.fst := by
    have hmap := @Markers.passes_map _ Prod.fst isStop insertedTag _ id Prod.fst markers (fun _ => rfl)
      markers_ne_nil (tag 0 detail)
    rw [tag_map_fst, passes_markers] at hmap
    exact hmap
  rw [traced, boundedDiagnostic, redact_eq, passes_markers] at h
  obtain rfl : truncate Prod.fst (cleaned (tag 0 detail)) = out := Except.ok.inj h
  rw [boundedDiagnostic, redact_eq, hplain]
  exact congrArg Except.ok (truncate_map (fun _ => rfl) _)

/-- **Redaction of a diagnostic.** It ends, with at most 512 bytes cut between two characters. No value behind a marker
is left where none is in quotes and no `Bearer ` with a value is the end of another; and only there is none left in
front of the cut. -/
theorem boundedDiagnostic_spec (detail : Text) : ∃ clean out, redact Prod.fst insertedTag (tag 0 detail) = .ok clean ∧
    traced detail = .ok out ∧ boundedDiagnostic id redacted detail = .ok (out.map Prod.fst) ∧ out <+: clean ∧
    (Utf8.bytes (out.map Prod.fst)).length ≤ 512 ∧ (NothingLeft detail clean ↔ Plain detail) ∧
    (Plain detail → NothingLeft detail out) ∧
    ((Utf8.bytes (clean.map Prod.fst)).length ≤ 512 → NothingLeft detail out → Plain detail) := by
  have hclean : redact Prod.fst insertedTag (tag 0 detail) = .ok (cleaned (tag 0 detail)) := by
    rw [redact_eq, passes_markers]
  have htraced : traced detail = .ok (truncate Prod.fst (cleaned (tag 0 detail))) := by
    rw [traced, boundedDiagnostic, hclean]
    rfl
  obtain ⟨hstart, hbytes⟩ := @truncate_spec _ Prod.fst (cleaned (tag 0 detail))
  refine ⟨_, _, hclean, htraced, boundedDiagnostic_traced htraced, hstart, hbytes,
    ⟨plain_of_nothing_left, nothing_left_of_plain⟩, ?_, ?_⟩
  · intro h front marker rest hin hdetail x hx hmem
    exact nothing_left_of_plain h front marker rest hin hdetail x hx (hstart.subset hmem)
  · intro hshort h
    rw [truncate_short hshort] at h
    exact plain_of_nothing_left h

/-- A value in quotes is left whole. -/
theorem quoted_value_left : ∃ out, traced "api_key=\"secret\"".toList = .ok out ∧
    ¬NothingLeft "api_key=\"secret\"".toList out := by
  refine ⟨tag 0 "api_key=".toList ++ insertedTag ++ tag 8 "\"secret\"".toList, by decide +kernel, fun h => ?_⟩
  exact h [] "api_key=".toList "\"secret\"".toList (by decide +kernel) (by decide +kernel) ('s', some 9)
    (by decide +kernel) (by decide +kernel)

end BoopStore.Diagnostic
