import HafleyRs.HafleyScm.Parens

/-!
# What the scanner reads (`crates/hafley_scm/src/scmpp/_1_parens.rs`)

`Mode` says where a character of a query stands: in the pattern, in a string, after a backslash in one, or in a
comment, and inside how many groups. The byte loops of the source are runs of this machine over bytes up to its first
return to depth zero (`upToBytes`), and as every byte the machine looks at is a character, over characters (`upTo`).
The lemmas ending in `_at` say what each loop finds from a place between two characters.
-/

namespace HafleyScm.Parens
open Loop Utf8

/-! ## The machine -/

inductive Kind where
  | quote | backslash | semicolon | newline | opens | closes | other
deriving DecidableEq, Repr

def kindOfByte (b : UInt8) : Kind :=
  if b = byte '"' then .quote
  else if b = byte '\\' then .backslash
  else if b = byte ';' then .semicolon
  else if b = byte '\n' then .newline
  else if b = byte '(' ∨ b = byte '[' then .opens
  else if b = byte ')' ∨ b = byte ']' then .closes
  else .other

def kindOf (c : Char) : Kind := if isAscii c then kindOfByte c.toUInt8 else .other

inductive Mode where
  | code (depth : Nat)
  | str (depth : Nat)
  | esc (depth : Nat)
  | comment (depth : Nat)
deriving DecidableEq, Repr

def Mode.next : Mode → Kind → Option Mode
  | .code d, .quote => some (.str d)
  | .code d, .semicolon => some (.comment d)
  | .code d, .opens => some (.code (d + 1))
  | .code 0, .closes => none
  | .code (d + 1), .closes => some (.code d)
  | .code d, _ => some (.code d)
  | .str d, .backslash => some (.esc d)
  | .str d, .quote => some (.code d)
  | .str d, _ => some (.str d)
  | .esc d, _ => some (.str d)
  | .comment d, .newline => some (.code d)
  | .comment d, _ => some (.comment d)

/-- The mode after a text. -/
def reads (m : Mode) (t : Text) : Option Mode := t.foldlM (fun m c => m.next (kindOf c)) m

/-- The text up to where the machine is first at depth zero, and the rest. -/
def upTo : Mode → Text → Option (Text × Text)
  | _, [] => none
  | m, c :: t =>
    match m.next (kindOf c) with
    | none => none
    | some m' => if m' = .code 0 then some ([c], t) else (upTo m' t).map fun x => (c :: x.1, x.2)

/-- The same over bytes: how many are read. -/
def upToBytes : Mode → Bytes → Option Nat
  | _, [] => none
  | m, b :: t =>
    match m.next (kindOfByte b) with
    | none => none
    | some m' => if m' = .code 0 then some 1 else (upToBytes m' t).map (· + 1)

@[simp] theorem reads_nil (m : Mode) : reads m [] = some m := rfl

theorem reads_cons (m : Mode) (c : Char) (t : Text) : reads m (c :: t) = (m.next (kindOf c)).bind (reads · t) := rfl

theorem reads_append (m : Mode) (s t : Text) : reads m (s ++ t) = (reads m s).bind (reads · t) := List.foldlM_append

theorem upTo_spec {m : Mode} {t s r : Text} (h : upTo m t = some (s, r)) : t = s ++ r ∧ reads m s = some (.code 0) := by
  induction t generalizing m s with
  | nil => cases h
  | cons c t ih =>
    rw [upTo] at h
    cases hm : m.next (kindOf c) with
    | none => rw [hm] at h; cases h
    | some m' =>
      rw [hm] at h
      simp only at h
      by_cases hzero : m' = .code 0
      · rw [if_pos hzero] at h
        cases h
        exact ⟨rfl, by rw [reads_cons, hm, hzero]; rfl⟩
      · rw [if_neg hzero] at h
        obtain ⟨x, hx, heq⟩ := Option.map_eq_some_iff.1 h
        cases heq
        obtain ⟨ht, hreads⟩ := ih hx
        exact ⟨by rw [ht]; rfl, by rw [reads_cons, hm]; exact hreads⟩

theorem kindOfByte_other {b : UInt8} (h : 128 ≤ b.toNat) : kindOfByte b = .other := by
  have hne : ∀ c : Char, isAscii c = true → b ≠ byte c := by
    rintro c hc rfl
    rw [byte, toUInt8_toNat hc] at h
    have : c.toNat < 128 := of_decide_eq_true hc
    omega
  rw [kindOfByte, if_neg (hne _ rfl), if_neg (hne _ rfl), if_neg (hne _ rfl), if_neg (hne _ rfl),
    if_neg (not_or.2 ⟨hne _ rfl, hne _ rfl⟩), if_neg (not_or.2 ⟨hne _ rfl, hne _ rfl⟩)]

/-- The mode after a character that is none of the scanner's. -/
def Mode.past : Mode → Mode
  | .esc d => .str d
  | m => m

theorem Mode.next_other (m : Mode) : m.next .other = some m.past := by
  cases m with
  | code d => cases d <;> rfl
  | str d => rfl
  | esc d => rfl
  | comment d => rfl

theorem upToBytes_other {xs : Bytes} (hxs : ∀ x ∈ xs, 128 ≤ x.toNat) {m : Mode} (hm : m ≠ .code 0) (hpast : m.past = m)
    (t : Bytes) : upToBytes m (xs ++ t) = (upToBytes m t).map (xs.length + ·) := by
  induction xs with
  | nil => simp
  | cons x xs ih =>
    rw [List.cons_append, upToBytes, kindOfByte_other (hxs x List.mem_cons_self), Mode.next_other, hpast]
    simp only
    rw [if_neg hm, ih fun y hy => hxs y (List.mem_cons_of_mem _ hy), Option.map_map]
    refine congrArg (Option.map · _) (funext fun n => ?_)
    simp only [Function.comp, List.length_cons]
    omega

/-- **Bytes are read as characters are.** -/
theorem upToBytes_bytes {m : Mode} (hm : m ≠ .code 0) (t : Text) :
    upToBytes m (bytes t) = (upTo m t).map fun x => (bytes x.1).length := by
  induction t generalizing m with
  | nil => rfl
  | cons c t ih =>
    rw [bytes_cons, upTo]
    cases hc : isAscii c with
    | true =>
      rw [encode_ascii hc, List.singleton_append, upToBytes, kindOf, if_pos hc]
      cases hnext : m.next (kindOfByte c.toUInt8) with
      | none => rfl
      | some m' =>
        simp only
        by_cases hzero : m' = .code 0
        · rw [if_pos hzero, if_pos hzero, Option.map_some, bytes_cons, encode_ascii hc]
          rfl
        · rw [if_neg hzero, if_neg hzero, ih hzero, Option.map_map, Option.map_map]
          refine congrArg (Option.map · _) (funext fun x => ?_)
          simp only [Function.comp, bytes_cons, encode_ascii hc, List.length_append, List.length_singleton]
          omega
    | false =>
      have hpast : m.past ≠ .code 0 := by
        cases m with
        | code d => exact hm
        | str d => exact fun h => by cases h
        | esc d => exact fun h => by cases h
        | comment d => exact fun h => by cases h
      have htwice : m.past.past = m.past := by cases m <;> rfl
      rw [kindOf, if_neg (by rw [hc]; exact Bool.false_ne_true), Mode.next_other]
      simp only
      rw [if_neg hpast, Option.map_map]
      cases hencode : String.utf8EncodeChar c with
      | nil => exact absurd hencode String.utf8EncodeChar_ne_nil
      | cons x xs =>
        have hxs := encode_other hc
        rw [hencode] at hxs
        rw [List.cons_append, upToBytes, kindOfByte_other (hxs x List.mem_cons_self), Mode.next_other]
        simp only
        rw [if_neg hpast, upToBytes_other (fun y hy => hxs y (List.mem_cons_of_mem _ hy)) hpast htwice, ih hpast,
          Option.map_map, Option.map_map]
        refine congrArg (Option.map · _) (funext fun y => ?_)
        simp only [Function.comp, bytes_cons, hencode, List.length_append, List.length_cons]
        omega

/-! ## The byte loops -/

section
variable {fuel : Nat} {text : Bytes} {i base : Nat}

theorem drop_of_getElem? {x : UInt8} (h : text[i]? = some x) : text.drop i = x :: text.drop (i + 1) := by
  obtain ⟨hi, rfl⟩ := List.getElem?_eq_some_iff.1 h
  exact List.drop_eq_getElem_cons hi

/-- What `after_string` finds from `i` on. -/
def StringEnds (text : Bytes) (offset i : Nat) (r : Run Nat) : Prop :=
  r = match upToBytes (.str 0) (text.drop i) with
    | some n => .ok (i + n)
    | none => fail offset "unterminated string"

/-- What is found after `k` bytes that leave the machine in the string. -/
theorem StringEnds.back {offset k : Nat} {r : Run Nat}
    (hread : upToBytes (.str 0) (text.drop i) = (upToBytes (.str 0) (text.drop (i + k))).map (k + ·))
    (h : StringEnds text offset (i + k) r) : StringEnds text offset i r := by
  rw [StringEnds] at h ⊢
  rw [hread, h]
  cases upToBytes (.str 0) (text.drop (i + k)) with
  | none => rfl
  | some n =>
    simp only [Option.map_some]
    congr 1
    omega

theorem afterString_eq (hfuel : text.length < fuel) (start base : Nat) :
    StringEnds text (base + start) (start + 1) (afterString fuel text start base) := by
  refine loop_rule (I := fun _ => True) (R := StringEnds text (base + start)) (fun i => text.length - i)
    (fun i _ => ?_) trivial (lt_of_le_of_lt (Nat.sub_le _ _) hfuel)
  cases hget : text[i]? with
  | none =>
    simp only [Fine, fail, StringEnds]
    rw [List.drop_eq_nil_of_le (List.getElem?_eq_none_iff.1 hget)]
    rfl
  | some x =>
    have hi : i < text.length := (List.getElem?_eq_some_iff.1 hget).1
    simp only
    by_cases hslash : x = byte '\\'
    · rw [if_pos hslash]
      refine ⟨trivial, by dsimp only; omega, fun r hr => hr.back ?_⟩
      have hkind : kindOfByte x = .backslash := by rw [hslash]; rfl
      rw [drop_of_getElem? hget, upToBytes, hkind]
      cases hnext : text[i + 1]? with
      | none =>
        have hend := List.getElem?_eq_none_iff.1 hnext
        rw [List.drop_eq_nil_of_le (by omega), List.drop_eq_nil_of_le (by omega)]
        rfl
      | some y =>
        rw [drop_of_getElem? hnext, Mode.next]
        simp only
        rw [if_neg (fun h => by cases h), upToBytes, Mode.next]
        simp only
        rw [if_neg (fun h => by cases h), Option.map_map]
        refine congrArg (Option.map · _) (funext fun n => ?_)
        simp only [Function.comp]
        omega
    · rw [if_neg hslash]
      by_cases hquote : x = byte '"'
      · rw [if_pos hquote]
        have hkind : kindOfByte x = .quote := by rw [hquote]; rfl
        simp only [Fine, StringEnds]
        rw [drop_of_getElem? hget, upToBytes, hkind]
        rfl
      · rw [if_neg hquote]
        refine ⟨trivial, by dsimp only; omega, fun r hr => hr.back ?_⟩
        have hnext : Mode.next (.str 0) (kindOfByte x) = some (.str 0) := by
          rw [kindOfByte, if_neg hquote, if_neg hslash]
          split_ifs <;> rfl
        rw [drop_of_getElem? hget, upToBytes, hnext]
        simp only
        rw [if_neg (fun h => by cases h)]
        exact congrArg (Option.map · _) (funext fun n => Nat.add_comm n 1)

theorem elim_findIdx? {α : Type} (p : α → Bool) (xs : List α) :
    (xs.findIdx? p).elim xs.length id = (xs.takeWhile fun x => !p x).length := by
  induction xs with
  | nil => rfl
  | cons x xs ih =>
    rw [List.findIdx?_cons]
    cases hp : p x with
    | true => simp [hp]
    | false =>
      rw [List.takeWhile_cons_of_pos (by rw [hp]; rfl), List.length_cons, List.length_cons, ← ih]
      cases xs.findIdx? p <;> rfl

theorem afterComment_eq (h : i ≤ text.length) :
    afterComment text i = .ok (i + ((text.drop i).takeWhile fun x => !decide (x = byte '\n')).length) := by
  rw [afterComment, if_neg (by omega), ← elim_findIdx?, List.length_drop]
  cases (text.drop i).findIdx? fun x => decide (x = byte '\n') with
  | none =>
    simp only [Option.elim_none]
    congr 1
    omega
  | some n => rfl

/-- A mode inside a string, at this depth. -/
def quoted (escaped : Bool) (d : Nat) : Mode := if escaped then .esc d else .str d

theorem next_quoted (escaped : Bool) (d : Nat) (k : Kind) :
    (quoted escaped d).next k =
      some (if !escaped && k = .quote then .code d else quoted (!escaped && k = .backslash) d) := by
  cases escaped <;> cases k <;> rfl

theorem quoted_ne (escaped : Bool) (d : Nat) : quoted escaped d ≠ .code 0 := by
  cases escaped <;> exact fun h => by cases h

/-- A string inside groups is read as one outside, and the group goes on after it. -/
theorem upToBytes_str (d : Nat) : ∀ (t : Bytes) (escaped : Bool), upToBytes (quoted escaped (d + 1)) t =
    (upToBytes (quoted escaped 0) t).bind fun n => (upToBytes (.code (d + 1)) (t.drop n)).map (n + ·)
  | [], _ => rfl
  | x :: t, escaped => by
    rw [upToBytes, upToBytes, next_quoted, next_quoted]
    simp only
    by_cases hend : (!escaped && decide (kindOfByte x = .quote)) = true
    · rw [if_pos hend, if_pos hend, if_neg (fun h => by cases h), if_pos rfl, Option.bind_some]
      refine congrArg (Option.map · _) (funext fun n => ?_)
      omega
    · rw [if_neg hend, if_neg hend, if_neg (quoted_ne _ _), if_neg (quoted_ne _ _), upToBytes_str d t]
      cases upToBytes (quoted (!escaped && decide (kindOfByte x = .backslash)) 0) t with
      | none => rfl
      | some n =>
        simp only [Option.map_some, Option.bind_some, Option.map_map, List.drop_succ_cons]
        refine congrArg (Option.map · _) (funext fun m => ?_)
        simp only [Function.comp]
        omega

theorem kindOfByte_newline (x : UInt8) : kindOfByte x = .newline ↔ x = byte '\n' := by
  constructor
  · intro h
    by_contra hne
    rw [kindOfByte, if_neg hne] at h
    split_ifs at h
  · rintro rfl
    rfl

/-- A comment inside groups is passed over up to the end of its line. -/
theorem upToBytes_comment (d : Nat) : ∀ t : Bytes, upToBytes (.comment (d + 1)) t =
    (upToBytes (.code (d + 1)) (t.drop (t.takeWhile fun x => !decide (x = byte '\n')).length)).map
      ((t.takeWhile fun x => !decide (x = byte '\n')).length + ·)
  | [] => rfl
  | x :: t => by
    by_cases hx : x = byte '\n'
    · have hcode : ∀ e, Mode.next (.code (e + 1)) .newline = some (.code (e + 1)) := fun _ => rfl
      have hcomment : ∀ e, Mode.next (.comment e) .newline = some (.code e) := fun _ => rfl
      rw [List.takeWhile_cons_of_neg (by simpa using hx), List.length_nil, List.drop_zero, upToBytes, upToBytes,
        (kindOfByte_newline x).2 hx, hcode, hcomment]
      simp only [Nat.zero_add]
      exact Option.map_id'.symm
    · have hnext : Mode.next (.comment (d + 1)) (kindOfByte x) = some (.comment (d + 1)) := by
        have := mt (kindOfByte_newline x).1 hx
        cases h : kindOfByte x with
        | newline => exact absurd h this
        | _ => rfl
      rw [List.takeWhile_cons_of_pos (by simpa using hx), upToBytes, hnext]
      simp only [List.length_cons, List.drop_succ_cons]
      rw [if_neg (fun h => by cases h), upToBytes_comment d t, Option.map_map]
      refine congrArg (Option.map · _) (funext fun n => ?_)
      simp only [Function.comp]
      omega

theorem upToBytes_le : ∀ {t : Bytes} {m : Mode} {n : Nat}, upToBytes m t = some n → 0 < n ∧ n ≤ t.length
  | [], _, _, h => by cases h
  | x :: t, m, n, h => by
    rw [upToBytes] at h
    cases hm : m.next (kindOfByte x) with
    | none => rw [hm] at h; cases h
    | some m' =>
      rw [hm] at h
      simp only at h
      split at h
      · cases h
        exact ⟨Nat.one_pos, by simp⟩
      · obtain ⟨k, hk, rfl⟩ := Option.map_eq_some_iff.1 h
        have := upToBytes_le hk
        simp only [List.length_cons]
        omega

/-- What `after_group` finds inside `depth` groups. -/
def GroupEnds (text : Bytes) (s : Nat × Nat) (r : Run Nat) : Prop :=
  match upToBytes (.code s.2) (text.drop s.1) with
  | some n => r = .ok (s.1 + n)
  | none => ∃ offset message, r = .error (.syntaxError offset message)

theorem GroupEnds.back {s : Nat × Nat} {k depth : Nat} {r : Run Nat}
    (hread : upToBytes (.code s.2) (text.drop s.1) = (upToBytes (.code depth) (text.drop (s.1 + k))).map (k + ·))
    (h : GroupEnds text (s.1 + k, depth) r) : GroupEnds text s r := by
  rw [GroupEnds] at h ⊢
  rw [hread]
  simp only at h
  cases hrest : upToBytes (.code depth) (text.drop (s.1 + k)) with
  | none =>
    rw [hrest] at h
    exact h
  | some n =>
    rw [hrest] at h
    simp only [Option.map_some] at h ⊢
    rw [h]
    congr 1
    omega

/-- One byte that leaves the machine in the pattern. -/
theorem read_byte {x : UInt8} {d depth : Nat} (hget : text[i]? = some x)
    (hnext : Mode.next (.code d) (kindOfByte x) = some (.code (depth + 1))) :
    upToBytes (.code d) (text.drop i) = (upToBytes (.code (depth + 1)) (text.drop (i + 1))).map (1 + ·) := by
  rw [drop_of_getElem? hget, upToBytes, hnext]
  simp only
  rw [if_neg (fun h => by cases h)]
  exact congrArg (Option.map · _) (funext fun n => Nat.add_comm n 1)

theorem by_kind {α : Type} (x : UInt8) (a b c d e : α) :
    (if x = byte '"' then a else if x = byte ';' then b else if x = byte '(' || x = byte '[' then c
      else if x = byte ')' || x = byte ']' then d else e) =
    match kindOfByte x with
    | .quote => a
    | .semicolon => b
    | .opens => c
    | .closes => d
    | _ => e := by
  simp only [Bool.or_eq_true, decide_eq_true_eq]
  rw [kindOfByte]
  by_cases h1 : x = byte '"'
  · rw [if_pos h1, if_pos h1]
  rw [if_neg h1, if_neg h1]
  by_cases h2 : x = byte '\\'
  · subst h2
    rfl
  rw [if_neg h2]
  by_cases h3 : x = byte ';'
  · rw [if_pos h3, if_pos h3]
  rw [if_neg h3, if_neg h3]
  by_cases h4 : x = byte '\n'
  · subst h4
    rfl
  rw [if_neg h4]
  split_ifs <;> rfl

theorem groupStep_eq {s : Nat × Nat} {x : UInt8} (hget : text[s.1]? = some x) (start base : Nat) :
    groupStep fuel text start base s =
      match kindOfByte x with
      | .quote => (afterString fuel text s.1 base).map fun i => .next (i, s.2)
      | .semicolon => (afterComment text s.1).map fun i => .next (i, s.2)
      | .opens => .ok (.next (s.1 + 1, s.2 + 1))
      | .closes =>
        match s.2 with
        | 0 => fail (base + s.1) "unbalanced close"
        | 1 => .ok (.done (s.1 + 1))
        | depth + 2 => .ok (.next (s.1 + 1, depth + 1))
      | _ => .ok (.next (s.1 + 1, s.2)) := by
  rw [groupStep, hget]
  exact by_kind ..

/-- **A group ends where the machine is at depth zero again**, and an unclosed one is refused. -/
theorem afterGroup_eq (hfuel : text.length < fuel) {start : Nat}
    (hopen : ∃ x, text[start]? = some x ∧ kindOfByte x = .opens) (base : Nat) :
    GroupEnds text (start, 0) (afterGroup fuel text start base) := by
  refine loop_rule (I := fun s : Nat × Nat => s.2 = 0 → ∃ x, text[s.1]? = some x ∧ kindOfByte x = .opens)
    (R := fun s r => GroupEnds text s r) (fun s => text.length - s.1) (fun s hs => ?_) (fun _ => hopen)
    (lt_of_le_of_lt (Nat.sub_le _ _) hfuel)
  obtain ⟨i, depth⟩ := s
  cases hget : text[i]? with
  | none =>
    have hnil : text.drop i = [] := List.drop_eq_nil_of_le (List.getElem?_eq_none_iff.1 hget)
    rw [groupStep, hget]
    simp only [Fine, fail, GroupEnds, hnil]
    exact ⟨_, _, rfl⟩
  | some x =>
    have hi : i < text.length := (List.getElem?_eq_some_iff.1 hget).1
    have hinside : kindOfByte x ≠ .opens → ∃ d, depth = d + 1 := fun hne => by
      refine Nat.exists_eq_succ_of_ne_zero fun hzero => ?_
      obtain ⟨y, hy, hopens⟩ := hs hzero
      rw [hget] at hy
      cases hy
      exact hne hopens
    have hplain : ∀ d, depth = d + 1 → Mode.next (.code (d + 1)) (kindOfByte x) = some (.code (d + 1)) →
        Fine (fun s : Nat × Nat => s.2 = 0 → ∃ x, text[s.1]? = some x ∧ kindOfByte x = .opens)
          (fun s => text.length - s.1) (fun s r => GroupEnds text s r) (i, depth)
          (.ok (.next (i + 1, depth)) : Run (Turn (Nat × Nat) Nat)) := by
      rintro d rfl hnext
      exact ⟨fun h => absurd h (Nat.succ_ne_zero d), by dsimp only; omega, fun r hr => hr.back (read_byte hget hnext)⟩
    rw [groupStep_eq (s := (i, depth)) hget]
    cases hkind : kindOfByte x with
    | opens =>
      refine ⟨fun h => absurd h (Nat.succ_ne_zero depth), by dsimp only; omega, fun r hr => hr.back (read_byte hget ?_)⟩
      rw [hkind]
      cases depth <;> rfl
    | closes =>
      obtain ⟨d, rfl⟩ := hinside (by rw [hkind]; exact fun h => by cases h)
      cases d with
      | zero =>
        simp only [Fine, GroupEnds]
        rw [drop_of_getElem? hget, upToBytes, hkind]
        rfl
      | succ d =>
        refine ⟨fun h => absurd h (Nat.succ_ne_zero d), by dsimp only; omega, fun r hr => hr.back (read_byte hget ?_)⟩
        rw [hkind]
        rfl
    | quote =>
      obtain ⟨d, rfl⟩ := hinside (by rw [hkind]; exact fun h => by cases h)
      have hread : upToBytes (.code (d + 1)) (text.drop i) = ((upToBytes (.str 0) (text.drop (i + 1))).bind fun n =>
          (upToBytes (.code (d + 1)) (text.drop (i + (1 + n)))).map (1 + n + ·)) := by
        rw [drop_of_getElem? hget, upToBytes, hkind, Mode.next]
        simp only
        rw [if_neg (fun h => by cases h)]
        have hstr := upToBytes_str d (text.drop (i + 1)) false
        rw [quoted, quoted, if_neg Bool.false_ne_true, if_neg Bool.false_ne_true] at hstr
        rw [hstr]
        cases upToBytes (.str 0) (text.drop (i + 1)) with
        | none => rfl
        | some n =>
          simp only [Option.bind_some, Option.map_map, List.drop_drop, Nat.add_assoc]
          refine congrArg (Option.map · _) (funext fun m => ?_)
          simp only [Function.comp]
          omega
      have hstring := afterString_eq hfuel i base
      rw [StringEnds] at hstring
      cases hend : upToBytes (.str 0) (text.drop (i + 1)) with
      | none =>
        rw [hend] at hstring hread
        rw [hstring]
        simp only [Fine, fail, GroupEnds, Except.map, hread]
        exact ⟨_, _, rfl⟩
      | some n =>
        rw [hend] at hstring hread
        have hn := upToBytes_le hend
        rw [List.length_drop] at hn
        rw [hstring]
        have hplace : i + 1 + n = i + (1 + n) := by omega
        refine ⟨fun h => absurd h (Nat.succ_ne_zero d), by dsimp only; omega, fun r hr => ?_⟩
        simp only at hr
        rw [hplace] at hr
        exact hr.back hread
    | semicolon =>
      obtain ⟨d, rfl⟩ := hinside (by rw [hkind]; exact fun h => by cases h)
      have hlen : ((text.drop i).takeWhile fun x => !decide (x = byte '\n')).length =
          1 + ((text.drop (i + 1)).takeWhile fun x => !decide (x = byte '\n')).length := by
        have hne : (!decide (x = byte '\n')) = true := by
          rw [Bool.not_eq_true', decide_eq_false_iff_not, ← kindOfByte_newline, hkind]
          exact fun h => by cases h
        rw [drop_of_getElem? hget, List.takeWhile_cons_of_pos (by exact hne), List.length_cons, Nat.add_comm]
      rw [afterComment_eq hi.le, hlen]
      generalize hcount : ((text.drop (i + 1)).takeWhile fun x => !decide (x = byte '\n')).length = count
      refine ⟨fun h => absurd h (Nat.succ_ne_zero d), by dsimp only; omega, fun r hr => hr.back ?_⟩
      simp only
      rw [drop_of_getElem? hget, upToBytes, hkind, Mode.next]
      simp only
      rw [if_neg (fun h => by cases h), upToBytes_comment, hcount, List.drop_drop, Option.map_map, Nat.add_assoc]
      refine congrArg (Option.map · _) (funext fun n => ?_)
      simp only [Function.comp]
      omega
    | backslash =>
      obtain ⟨d, hd⟩ := hinside (by rw [hkind]; exact fun h => by cases h)
      exact hplain d hd (by rw [hkind]; rfl)
    | newline =>
      obtain ⟨d, hd⟩ := hinside (by rw [hkind]; exact fun h => by cases h)
      exact hplain d hd (by rw [hkind]; rfl)
    | other =>
      obtain ⟨d, hd⟩ := hinside (by rw [hkind]; exact fun h => by cases h)
      exact hplain d hd (by rw [hkind]; rfl)

end

/-! ## From a place between two characters -/

/-- The byte offset at the end of a text. -/
abbrev pos (a : Text) : Nat := (bytes a).length

def wordC (c : Char) : Bool := !isAscii c || wordChar c.toUInt8

def nameC (c : Char) : Bool := isAscii c && nameChar c.toUInt8

def whitespaceC (c : Char) : Bool := isAscii c && isAsciiWhitespace c.toUInt8

theorem pos_cons {c : Char} (hc : isAscii c = true) (t : Text) : pos (c :: t) = pos t + 1 := by
  rw [pos, bytes_cons, encode_ascii hc, List.length_append, List.length_singleton, Nat.add_comm]

theorem pos_append (a b : Text) : pos (a ++ b) = pos a + pos b := by
  rw [pos, bytes_append, List.length_append]

theorem byte_inj {c d : Char} (hc : isAscii c = true) (hd : isAscii d = true) : c.toUInt8 = byte d ↔ c = d := by
  constructor
  · intro h
    have hnat := congrArg UInt8.toNat h
    rw [byte, toUInt8_toNat hc, toUInt8_toNat hd] at hnat
    exact Char.toNat_inj.1 hnat
  · rintro rfl
    rfl

/-- The first byte of a character, as far as the scanner looks. -/
structure FirstByte (c : Char) (x : UInt8) : Prop where
  eq_iff     : ∀ d, isAscii d = true → (x = byte d ↔ c = d)
  kind       : kindOfByte x = kindOf c
  whitespace : isAsciiWhitespace x = whitespaceC c
  word       : wordChar x = wordC c

theorem high_byte {x : UInt8} (h : 128 ≤ x.toNat) : (∀ d, isAscii d = true → x ≠ byte d) ∧
    isAsciiWhitespace x = false ∧ wordChar x = true ∧ nameChar x = false := by
  have hne : ∀ d, isAscii d = true → x ≠ byte d := by
    rintro d hd rfl
    rw [byte, toUInt8_toNat hd] at h
    have : d.toNat < 128 := of_decide_eq_true hd
    omega
  have hwhite : isAsciiWhitespace x = false := by
    have hff : x.toNat ≠ 0x0c := by omega
    simp [isAsciiWhitespace, hff, hne ' ' rfl, hne '\t' rfl, hne '\n' rfl, hne '\r' rfl]
  refine ⟨hne, hwhite, ?_, ?_⟩
  · simp [wordChar, hwhite, hne '(' rfl, hne ')' rfl, hne '[' rfl, hne ']' rfl, hne '"' rfl, hne ';' rfl, hne '@' rfl]
  · have hle : ∀ d, isAscii d = true → ¬x ≤ byte d := fun d hd hle => by
      rw [UInt8.le_iff_toNat_le, byte, toUInt8_toNat hd] at hle
      have : d.toNat < 128 := of_decide_eq_true hd
      omega
    simp [nameChar, hle 'z' rfl, hle 'Z' rfl, hle '9' rfl, hne '_' rfl, hne '-' rfl, hne '.' rfl]

theorem firstByte {text : Text} (a : Text) (c : Char) (t : Text) (htext : text = a ++ c :: t) :
    ∃ x, (bytes text)[pos a]? = some x ∧ FirstByte c x := by
  subst htext
  cases hc : isAscii c with
  | true =>
    refine ⟨c.toUInt8, getElem?_bytes rfl hc, fun d hd => byte_inj hc hd, ?_, ?_, ?_⟩
    · rw [kindOf, if_pos hc]
    · rw [whitespaceC, hc, Bool.true_and]
    · rw [wordC, hc, Bool.not_true, Bool.false_or]
  | false =>
    cases hencode : String.utf8EncodeChar c with
    | nil => exact absurd hencode String.utf8EncodeChar_ne_nil
    | cons x xs =>
      have hx := encode_other hc x (by rw [hencode]; exact List.mem_cons_self)
      obtain ⟨hne, hwhite, hword, -⟩ := high_byte hx
      refine ⟨x, ?_, fun d hd => ?_, ?_, ?_, ?_⟩
      · rw [bytes_append, List.getElem?_append_right le_rfl, Nat.sub_self, bytes_cons, hencode]
        rfl
      · constructor
        · exact fun h => absurd h (hne d hd)
        · rintro rfl
          rw [hd] at hc
          cases hc
      · rw [kindOf, if_neg (by rw [hc]; exact Bool.false_ne_true), kindOfByte_other hx]
      · rw [whitespaceC, hc, Bool.false_and, hwhite]
      · rw [wordC, hc, hword]
        rfl

theorem name_bounds {c : Char} (h : nameC c = true) :
    (97 ≤ c.toNat ∧ c.toNat ≤ 122) ∨ (65 ≤ c.toNat ∧ c.toNat ≤ 90) ∨ (48 ≤ c.toNat ∧ c.toNat ≤ 57) ∨ c.toNat = 95 ∨
      c.toNat = 45 ∨ c.toNat = 46 := by
  rw [nameC, Bool.and_eq_true] at h
  obtain ⟨hascii, hname⟩ := h
  have hcode : ∀ d : Char, isAscii d = true → (byte d).toNat = d.toNat := fun d hd => toUInt8_toNat hd
  simp only [nameChar, Bool.or_eq_true, Bool.and_eq_true, decide_eq_true_eq, UInt8.le_iff_toNat_le,
    ← UInt8.toNat_inj, toUInt8_toNat hascii, hcode 'a' rfl, hcode 'z' rfl, hcode 'A' rfl, hcode 'Z' rfl, hcode '0' rfl,
    hcode '9' rfl, hcode '_' rfl, hcode '-' rfl, hcode '.' rfl, Char.reduceToNat] at hname
  omega

/-- Any of the scanner's characters is known by its byte. -/
theorem kindOf_cases (c : Char) {P : Kind → Prop} (hquote : c = '"' → P .quote) (hslash : c = '\\' → P .backslash)
    (hsemi : c = ';' → P .semicolon) (hline : c = '\n' → P .newline) (hopens : c = '(' ∨ c = '[' → P .opens)
    (hcloses : c = ')' ∨ c = ']' → P .closes) (hother : P .other) : P (kindOf c) := by
  rw [kindOf]
  split
  · rename_i hascii
    have hbyte : ∀ d : Char, isAscii d = true → c.toUInt8 = byte d → c = d := fun d hd => (byte_inj hascii hd).1
    rw [kindOfByte]
    split_ifs with h1 h2 h3 h4 h5 h6
    · exact hquote (hbyte _ rfl h1)
    · exact hslash (hbyte _ rfl h2)
    · exact hsemi (hbyte _ rfl h3)
    · exact hline (hbyte _ rfl h4)
    · exact hopens (h5.imp (hbyte _ rfl) (hbyte _ rfl))
    · exact hcloses (h6.imp (hbyte _ rfl) (hbyte _ rfl))
    · exact hother
  · exact hother

theorem no_byte (a : Text) : (bytes a)[pos a]? = none := List.getElem?_eq_none le_rfl

theorem pos_singleton {c : Char} (hc : isAscii c = true) (a : Text) : pos (a ++ [c]) = pos a + 1 := by
  rw [pos_append, pos_cons hc]
  rfl

theorem pos_pos (c : Char) (t : Text) : 0 < pos (c :: t) := by
  rw [pos, bytes_cons, List.length_append, length_encode]
  have := c.utf8Size_pos
  omega

section
variable {fuel base : Nat} {text a t : Text}

theorem afterString_at (htext : text = a ++ '"' :: t) (hfuel : pos text < fuel) :
    afterString fuel (bytes text) (pos a) base =
      match upTo (.str 0) t with
      | some x => .ok (pos (a ++ '"' :: x.1))
      | none => fail (base + pos a) "unterminated string" := by
  have h := afterString_eq hfuel (pos a) base
  have hdrop : (bytes text).drop (pos a + 1) = bytes t := by
    have := drop_bytes (a := a ++ ['"']) (b := t) (i := pos a + 1) (by rw [← pos, pos_append]; rfl)
    rwa [List.append_assoc, List.singleton_append, ← htext] at this
  rw [StringEnds, hdrop, upToBytes_bytes (fun h => by cases h)] at h
  rw [h]
  cases upTo (.str 0) t with
  | none => rfl
  | some x =>
    simp only [Option.map_some, pos_append]
    rw [pos_cons (c := '"') rfl, Nat.add_assoc, Nat.add_comm 1]

variable (base) in
theorem afterGroup_at {o : Char} (ho : kindOf o = .opens) (htext : text = a ++ o :: t) (hfuel : pos text < fuel) :
    match upTo (.code 1) t with
    | some x => afterGroup fuel (bytes text) (pos a) base = .ok (pos (a ++ o :: x.1))
    | none => ∃ offset message, afterGroup fuel (bytes text) (pos a) base = .error (.syntaxError offset message) := by
  have hascii : isAscii o = true := by
    by_contra hc
    rw [kindOf, if_neg hc] at ho
    cases ho
  obtain ⟨x, hx, hfirst⟩ := firstByte a o t htext
  have h := afterGroup_eq hfuel ⟨x, hx, by rw [hfirst.kind, ho]⟩ base
  have hdrop : (bytes text).drop (pos a) = o.toUInt8 :: bytes t := by
    rw [htext, drop_bytes rfl, bytes_cons, encode_ascii hascii]
    rfl
  have hkind : kindOfByte o.toUInt8 = .opens := by rw [← ho, kindOf, if_pos hascii]
  have hnext : Mode.next (.code 0) .opens = some (.code 1) := rfl
  rw [GroupEnds, hdrop, upToBytes, hkind, hnext] at h
  simp only at h
  rw [if_neg (fun h => by cases h), upToBytes_bytes (fun h => by cases h)] at h
  cases hrest : upTo (.code 1) t with
  | none =>
    rw [hrest] at h
    exact h
  | some y =>
    rw [hrest] at h
    simp only [Option.map_some] at h ⊢
    rw [h, pos_append, pos_cons hascii]

theorem afterComment_at (htext : text = a ++ t) :
    afterComment (bytes text) (pos a) = .ok (pos (a ++ t.takeWhile fun c => c ≠ '\n')) := by
  rw [htext, afterComment_eq (by rw [← pos, pos_append]; omega), drop_bytes rfl,
    takeWhile_bytes (P := fun c => decide (c ≠ '\n')), ← pos, ← pos_append]
  · intro c hc x hx
    cases hascii : isAscii c with
    | true =>
      rw [encode_ascii hascii, List.mem_singleton] at hx
      rw [hx, Bool.not_eq_true', decide_eq_false_iff_not, byte_inj (d := '\n') hascii rfl]
      exact of_decide_eq_true hc
    | false => simpa using (high_byte (encode_other hascii x hx)).1 '\n' rfl
  · intro c hc x hx
    obtain rfl : c = '\n' := by simpa using hc
    rw [encode_ascii rfl] at hx
    cases hx
    rfl

theorem skipWhile_at {p : UInt8 → Bool} {P : Char → Bool} {stop : Nat} {b : Text}
    (hyes : ∀ c, P c = true → ∀ x ∈ String.utf8EncodeChar c, p x = true)
    (hno : ∀ c, P c = false → ∀ x ∈ (String.utf8EncodeChar c).head?, p x = false)
    (htext : text = a ++ (t ++ b)) (hstop : stop = pos (a ++ t)) :
    skipWhile p (bytes text) (pos a) stop = pos (a ++ t.takeWhile P) := by
  have htake : (bytes text).take stop = bytes (a ++ t) := by
    rw [htext, hstop, ← List.append_assoc, bytes_append (a ++ t), List.take_left]
  rw [skipWhile, htake, drop_bytes rfl, takeWhile_bytes hyes hno, ← pos, ← pos_append]

theorem skipWord_at {stop : Nat} {b : Text} (htext : text = a ++ (t ++ b)) (hstop : stop = pos (a ++ t)) :
    skipWhile wordChar (bytes text) (pos a) stop = pos (a ++ t.takeWhile wordC) := by
  refine skipWhile_at (fun c hc x hx => ?_) (fun c hc x hx => ?_) htext hstop
  · cases hascii : isAscii c with
    | true =>
      rw [encode_ascii hascii, List.mem_singleton] at hx
      rw [wordC, hascii] at hc
      rw [hx]
      exact hc
    | false => exact (high_byte (encode_other hascii x hx)).2.2.1
  · rw [wordC, Bool.or_eq_false_iff, Bool.not_eq_false'] at hc
    rw [encode_ascii hc.1] at hx
    cases hx
    exact hc.2

theorem skipName_at {stop : Nat} {b : Text} (htext : text = a ++ (t ++ b)) (hstop : stop = pos (a ++ t)) :
    skipWhile nameChar (bytes text) (pos a) stop = pos (a ++ t.takeWhile nameC) := by
  refine skipWhile_at (fun c hc x hx => ?_) (fun c hc x hx => ?_) htext hstop
  · rw [nameC, Bool.and_eq_true] at hc
    rw [encode_ascii hc.1, List.mem_singleton] at hx
    rw [hx]
    exact hc.2
  · cases hascii : isAscii c with
    | true =>
      rw [encode_ascii hascii] at hx
      cases hx
      rwa [nameC, hascii, Bool.true_and] at hc
    | false => exact (high_byte (encode_other hascii x (List.mem_of_mem_head? hx))).2.2.2

theorem slice_at {b : Text} {i j : Nat} (htext : text = a ++ (t ++ b)) (hi : i = pos a) (hj : j = pos (a ++ t)) :
    slice text i j = .ok t := by
  rw [slice, htext, ← List.append_assoc, slice_append a t b hi (by rw [hj, hi, pos_append])]

theorem sliceFrom_at {i : Nat} (htext : text = a ++ t) (hi : i = pos a) : sliceFrom text i = .ok t := by
  rw [sliceFrom, slice, htext, slice_rest a t hi]

end

end HafleyScm.Parens
