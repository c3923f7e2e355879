import Mathlib

/-!
# Bytes and words

A byte is a number below 256, and a word one below `2 ^ 64`; texts of bytes and of characters are lists. The facts
that a literal or a comparison of these rests on stand here under names, so that two definitions which need the
same fact mention the same one.
-/

namespace Words

instance neZero_byte : NeZero 256 := ⟨by decide⟩

instance neZero_word : NeZero (2 ^ 64) := ⟨by decide⟩

instance lawfulBEq_chars : LawfulBEq (List Char) := inferInstance

instance lawfulBEq_bytes : LawfulBEq (List (Fin 256)) := inferInstance

end Words
