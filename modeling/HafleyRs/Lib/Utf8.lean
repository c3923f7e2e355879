import Mathlib

/-!
# Text by its bytes

A text is a list of characters, and `bytes` are its bytes in UTF-8. `cutAt` cuts it at a byte and `slice` takes a part
out; both are `none` where a bound is past the end or inside a character. A byte below 128 is a character of its own
(`exists_of_ascii`), which is why a scanner that looks for such bytes alone stops between characters, and may step
through the others byte by byte (`takeWhile_bytes`).
-/

namespace Utf8

def bytes (t : List Char) : List UInt8 := t.flatMap String.utf8EncodeChar

@[simp] theorem bytes_nil : bytes [] = [] := rfl

@[simp] theorem bytes_cons (c : Char) (t : List Char) : bytes (c :: t) = String.utf8EncodeChar c ++ bytes t := rfl

@[simp] theorem bytes_append (a b : List Char) : bytes (a ++ b) = bytes a ++ bytes b := List.flatMap_append

/-! ## Characters of one byte -/

def isAscii (c : Char) : Bool := c.toNat < 128

theorem encode_ascii {c : Char} (h : isAscii c = true) : String.utf8EncodeChar c = [c.toUInt8] := by
  have hc : c.val.toNat ≤ 0x7f := Nat.lt_succ_iff.1 (of_decide_eq_true h)
  rw [String.utf8EncodeChar]
  simp only [hc, if_true]
  rfl

theorem encode_other {c : Char} (h : isAscii c = false) : ∀ x ∈ String.utf8EncodeChar c, 128 ≤ x.toNat := by
  have hc : ¬c.val.toNat ≤ 0x7f := fun hle => of_decide_eq_false h (Nat.lt_succ_iff.2 hle)
  have hlow : ∀ n, 128 ≤ n → n < 256 → 128 ≤ (UInt8.ofNat n).toNat := fun n hn hn' => by
    rw [UInt8.toNat_ofNat', Nat.mod_eq_of_lt hn']
    exact hn
  intro x hx
  rw [String.utf8EncodeChar] at hx
  simp only [hc, if_false] at hx
  split at hx
  · simp only [List.mem_cons, List.not_mem_nil, or_false] at hx
    rcases hx with rfl | rfl <;> exact hlow _ (by omega) (by omega)
  · split at hx
    · simp only [List.mem_cons, List.not_mem_nil, or_false] at hx
      rcases hx with rfl | rfl | rfl <;> exact hlow _ (by omega) (by omega)
    · simp only [List.mem_cons, List.not_mem_nil, or_false] at hx
      rcases hx with rfl | rfl | rfl | rfl <;> exact hlow _ (by omega) (by omega)

theorem toUInt8_toNat {c : Char} (h : isAscii c = true) : c.toUInt8.toNat = c.toNat := by
  have hc : c.toNat < 128 := of_decide_eq_true h
  rw [Char.toUInt8, UInt32.toNat_toUInt8]
  exact Nat.mod_eq_of_lt (by change c.toNat < _; omega)

/-- A byte below 128 is a character, and the text falls apart around it. -/
theorem exists_of_ascii {t : List Char} {i : Nat} {x : UInt8} (h : (bytes t)[i]? = some x) (hx : x.toNat < 128) :
    ∃ a c b, t = a ++ c :: b ∧ (bytes a).length = i ∧ isAscii c = true ∧ c.toUInt8 = x := by
  induction t generalizing i with
  | nil => simp at h
  | cons c t ih =>
    rw [bytes_cons] at h
    by_cases hi : i < (String.utf8EncodeChar c).length
    · rw [List.getElem?_append_left hi] at h
      cases hc : isAscii c with
      | false =>
        have := encode_other hc x (List.mem_of_getElem? h)
        omega
      | true =>
        rw [encode_ascii hc] at h hi
        obtain rfl : i = 0 := by simpa using hi
        exact ⟨[], c, t, rfl, rfl, hc, by simpa using h⟩
    · rw [List.getElem?_append_right (by omega)] at h
      obtain ⟨a, d, b, rfl, hlen, hd, hdx⟩ := ih h
      refine ⟨c :: a, d, b, rfl, ?_, hd, hdx⟩
      rw [bytes_cons, List.length_append]
      omega

/-- Stepping over bytes is stepping over characters, when a character is stepped over whole or not at all. -/
theorem takeWhile_bytes {p : UInt8 → Bool} {P : Char → Bool}
    (hyes : ∀ c, P c = true → ∀ x ∈ String.utf8EncodeChar c, p x = true)
    (hno : ∀ c, P c = false → ∀ x ∈ (String.utf8EncodeChar c).head?, p x = false) (t : List Char) :
    (bytes t).takeWhile p = bytes (t.takeWhile P) := by
  induction t with
  | nil => rfl
  | cons c t ih =>
    cases hc : P c with
    | true =>
      rw [bytes_cons, List.takeWhile_append_of_pos (hyes c hc), ih, List.takeWhile_cons_of_pos hc, bytes_cons]
    | false =>
      rw [List.takeWhile_cons_of_neg (by rw [hc]; exact Bool.false_ne_true), bytes_nil, bytes_cons]
      cases hencode : String.utf8EncodeChar c with
      | nil => exact absurd hencode String.utf8EncodeChar_ne_nil
      | cons x xs =>
        rw [List.cons_append, List.takeWhile_cons_of_neg]
        rw [hno c hc x (by rw [hencode]; rfl)]
        exact Bool.false_ne_true

theorem bytes_ascii {t : List Char} (h : ∀ c ∈ t, isAscii c = true) : bytes t = t.map Char.toUInt8 := by
  induction t with
  | nil => rfl
  | cons c t ih =>
    obtain ⟨hc, ht⟩ := List.forall_mem_cons.1 h
    rw [bytes_cons, encode_ascii hc, ih ht]
    rfl

theorem toList_loop (b : ByteArray) (i : Nat) (r : List UInt8) :
    ByteArray.toList.loop b i r = r.reverse ++ b.data.toList.drop i := by
  fun_induction ByteArray.toList.loop b i r with
  | case1 i r h ih =>
    have hlt : i < b.data.toList.length := h
    rw [ih, List.reverse_cons, List.append_assoc, List.drop_eq_getElem_cons hlt, List.singleton_append]
    congr 2
    exact getElem!_pos b.data i h
  | case2 i r h =>
    rw [List.drop_eq_nil_of_le (Nat.le_of_not_lt h), List.append_nil]

/-- The bytes of a string. -/
theorem toList_toUTF8 (t : List Char) : (String.ofList t).toUTF8.toList = bytes t := by
  rw [String.toUTF8_eq_toByteArray, String.toByteArray_ofList, List.utf8Encode, ByteArray.toList, toList_loop,
    List.toList_data_toByteArray]
  rfl

/-! ## Cutting -/

def cutAt : List Char → Nat → Option (List Char × List Char)
  | t, 0 => some ([], t)
  | [], _ + 1 => none
  | c :: t, i + 1 => if c.utf8Size ≤ i + 1 then (cutAt t (i + 1 - c.utf8Size)).map fun x => (c :: x.1, x.2) else none

/-- `&text[i..j]` -/
def slice (t : List Char) (i j : Nat) : Option (List Char) :=
  if i ≤ j then (cutAt t j).bind fun x => (cutAt x.1 i).map Prod.snd else none

theorem length_encode (c : Char) : (String.utf8EncodeChar c).length = c.utf8Size := String.length_utf8EncodeChar c

theorem cutAt_some {t a b : List Char} {i : Nat} (h : cutAt t i = some (a, b)) : t = a ++ b ∧ (bytes a).length = i := by
  induction t generalizing i a with
  | nil =>
    cases i with
    | zero =>
      rw [cutAt] at h
      cases h
      exact ⟨rfl, rfl⟩
    | succ i =>
      rw [cutAt] at h
      cases h
  | cons c t ih =>
    cases i with
    | zero =>
      rw [cutAt] at h
      cases h
      exact ⟨rfl, rfl⟩
    | succ i =>
      rw [cutAt] at h
      split at h
      · rename_i hle
        obtain ⟨⟨a', b'⟩, hcut, heq⟩ := Option.map_eq_some_iff.1 h
        cases heq
        obtain ⟨rfl, hlen⟩ := ih hcut
        refine ⟨rfl, ?_⟩
        rw [bytes_cons, List.length_append, length_encode, hlen]
        omega
      · cases h

theorem cutAt_append (a b : List Char) : cutAt (a ++ b) (bytes a).length = some (a, b) := by
  induction a with
  | nil => rw [List.nil_append, bytes_nil, List.length_nil, cutAt]
  | cons c a ih =>
    obtain ⟨n, hn⟩ : ∃ n, (bytes (c :: a)).length = n + 1 := ⟨c.utf8Size + (bytes a).length - 1, by
      have := c.utf8Size_pos
      rw [bytes_cons, List.length_append, length_encode]
      omega⟩
    have hrest : n + 1 - c.utf8Size = (bytes a).length := by
      rw [← hn, bytes_cons, List.length_append, length_encode]
      omega
    have hle : c.utf8Size ≤ n + 1 := by
      rw [← hn, bytes_cons, List.length_append, length_encode]
      omega
    rw [hn, List.cons_append, cutAt, if_pos hle, hrest, ih]
    rfl

/-- The part between two cuts. -/
theorem slice_append (a b c : List Char) {i j : Nat} (hi : i = (bytes a).length) (hj : j = i + (bytes b).length) :
    slice (a ++ b ++ c) i j = some b := by
  subst hi hj
  have hcut := cutAt_append (a ++ b) c
  rw [bytes_append, List.length_append] at hcut
  rw [slice, if_pos (Nat.le_add_right _ _), hcut, Option.bind_some, cutAt_append, Option.map_some]

/-- The rest from a cut on. -/
theorem slice_rest (a b : List Char) {i : Nat} (hi : i = (bytes a).length) :
    slice (a ++ b) i (bytes (a ++ b)).length = some b := by
  subst hi
  have h := slice_append a b [] rfl rfl
  rwa [List.append_nil, ← List.length_append, ← bytes_append] at h

section
variable {a b : List Char} {i : Nat}

theorem drop_bytes (hi : i = (bytes a).length) : (bytes (a ++ b)).drop i = bytes b := by
  rw [hi, bytes_append, List.drop_left]

theorem getElem?_bytes (hi : i = (bytes a).length) {c : Char} (hc : isAscii c = true) :
    (bytes (a ++ c :: b))[i]? = some c.toUInt8 := by
  rw [hi, bytes_append, List.getElem?_append_right le_rfl, Nat.sub_self, bytes_cons, encode_ascii hc]
  rfl

end

end Utf8
