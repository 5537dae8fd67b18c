import Mathlib.Data.List.Lex
import Docblock.Text.Basic

/-!
# The order of bytes

Texts are compared character by character, and file systems compare names byte by byte.  The two
orders agree: of two characters the greater one has the greater first byte, or both take equally
many bytes and the greater one is greater in the first byte in which they differ.
-/

namespace Docblock.Text

variable {c d : Char} {s t : Text} {xs ys : List UInt8}

/-- The bytes of a text, in order. -/
def bytes (s : Text) : List UInt8 :=
  s.encode.data.toList

/-- The bytes of a text are those of its characters, one after the other. -/
theorem bytes_eq_flatMap (s : Text) : bytes s = s.flatMap String.utf8EncodeChar := by
  have hencode : s.encode = (s.flatMap String.utf8EncodeChar).toByteArray := by
    rw [encode]
    exact String.toByteArray_ofList
  rw [bytes, hencode, List.toList_data_toByteArray]

@[simp] theorem bytes_nil : bytes [] = [] :=
  bytes_eq_flatMap []

theorem bytes_cons (c : Char) (s : Text) : bytes (c :: s) = String.utf8EncodeChar c ++ bytes s := by
  rw [bytes_eq_flatMap, bytes_eq_flatMap, List.flatMap_cons]

/-- Small numbers are compared as bytes as they are compared as numbers. -/
theorem ofNat_cons_lt_iff {a b : Nat} (ha : a < 256) (hb : b < 256) :
    UInt8.ofNat a :: xs < UInt8.ofNat b :: ys ↔ a < b ∨ a = b ∧ xs < ys := by
  have hlt : UInt8.ofNat a < UInt8.ofNat b ↔ a < b := by
    rw [UInt8.lt_iff_toNat_lt, UInt8.toNat_ofNat_of_lt' ha, UInt8.toNat_ofNat_of_lt' hb]
  have heq : UInt8.ofNat a = UInt8.ofNat b ↔ a = b := by
    rw [← UInt8.toNat_inj, UInt8.toNat_ofNat_of_lt' ha, UInt8.toNat_ofNat_of_lt' hb]
  rw [List.cons_lt_cons_iff, hlt, heq]

/-- The bytes of a character are less than those of a greater one, whatever follows them. -/
theorem utf8EncodeChar_append_lt (h : c < d) (xs ys : List UInt8) :
    String.utf8EncodeChar c ++ xs < String.utf8EncodeChar d ++ ys := by
  have hlt : c.val.toNat < d.val.toNat := UInt32.lt_iff_toNat_lt.mp h
  have hd : d.val.toNat < 0x110000 := by
    have := d.valid
    simp only [UInt32.isValidChar, Nat.isValidChar] at this
    omega
  -- with the bytes as quotients and remainders, only the two numbers matter
  simp only [String.utf8EncodeChar]
  generalize c.val.toNat = v at *
  generalize d.val.toNat = w at *
  have hdigits (n : Nat) : n / 4096 = n / 64 / 64 ∧ n / 262144 = n / 64 / 64 / 64 := by omega
  -- the first byte tells how many bytes a character takes, and then the digits of the two are compared
  split_ifs <;> try omega
  all_goals
    simp (disch := omega) only [List.cons_append, List.nil_append, ofNat_cons_lt_iff, hdigits]
    omega

/-- The order of texts is the order of their bytes. -/
theorem bytes_lt_bytes (h : s < t) : bytes s < bytes t := by
  induction s generalizing t with
  | nil =>
    cases t with
    | nil => exact absurd h (List.not_lt_nil _)
    | cons d t =>
      obtain ⟨x, xs, hxs⟩ := List.exists_cons_of_ne_nil String.utf8EncodeChar_ne_nil
      rw [bytes_nil, bytes_cons, hxs]
      exact List.nil_lt_cons x _
  | cons c s ih =>
    cases t with
    | nil => exact absurd h (List.not_lt_nil _)
    | cons d t =>
      rw [bytes_cons, bytes_cons]
      rcases List.cons_lt_cons_iff.mp h with hcd | ⟨rfl, hst⟩
      · exact utf8EncodeChar_append_lt hcd _ _
      · exact List.append_left_lt (ih hst)

end Docblock.Text
