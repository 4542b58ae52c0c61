import Mathlib.Data.List.Basic
import Mathlib.Tactic

/-!
# UTF-8 as a list of bytes

The encoding of a list of characters as a list of bytes, and what strict
decoding says about it.  The first bytes of an encoded text decode exactly when
they end between two characters, and then to the characters before that point.
-/

namespace Utf8

def encode (chars : List Char) : List UInt8 :=
  chars.flatMap String.utf8EncodeChar

@[simp] theorem encode_nil : encode [] = [] := rfl

theorem encode_cons (c : Char) (chars : List Char) :
    encode (c :: chars) = String.utf8EncodeChar c ++ encode chars := by
  simp [encode]

theorem encode_append (front back : List Char) :
    encode (front ++ back) = encode front ++ encode back := by
  simp [encode]

theorem utf8Encode_eq (chars : List Char) :
    chars.utf8Encode = ⟨(encode chars).toArray⟩ := by
  apply ByteArray.ext
  simp [List.utf8Encode, encode]

theorem length_encode_string (text : String) :
    (encode text.toList).length = text.utf8ByteSize := by
  have hbytes := congrArg ByteArray.size (@String.utf8Encode_toList text)
  rw [utf8Encode_eq] at hbytes
  exact hbytes

theorem length_encode_le (chars : List Char) :
    (encode chars).length ≤ 4 * chars.length := by
  induction chars with
  | nil => simp
  | cons c chars ih =>
      have hsize := c.utf8Size_le_four
      rw [encode_cons, List.length_append, String.length_utf8EncodeChar,
        List.length_cons]
      omega

theorem length_le_length_encode (chars : List Char) :
    chars.length ≤ (encode chars).length := by
  induction chars with
  | nil => simp
  | cons c chars ih =>
      have hsize := c.utf8Size_pos
      rw [encode_cons, List.length_append, String.length_utf8EncodeChar,
        List.length_cons]
      omega

theorem length_encode_mono
    {front chars : List Char} (hfront : front <+: chars) :
    (encode front).length ≤ (encode chars).length := by
  obtain ⟨back, rfl⟩ := hfront
  rw [encode_append, List.length_append]
  exact Nat.le_add_right _ _

theorem toByteArray_eq (text : String) :
    text.toByteArray = ⟨(encode text.toList).toArray⟩ := by
  rw [← utf8Encode_eq, String.utf8Encode_toList]

/-- Strict decoding is the inverse of encoding. -/
theorem fromUTF8?_eq_some_iff
    {bytes : List UInt8} {text : String} :
    String.fromUTF8? ⟨bytes.toArray⟩ = some text ↔
      bytes = encode text.toList := by
  unfold String.fromUTF8?
  constructor
  · intro hdecode
    split at hdecode
    next hvalid =>
      rw [Option.some.injEq] at hdecode
      have hbytes : text.toByteArray = ⟨bytes.toArray⟩ := by
        rw [← hdecode]
        rfl
      rw [toByteArray_eq, ByteArray.mk.injEq] at hbytes
      exact (List.toArray_inj hbytes).symm
    next => simp at hdecode
  · rintro rfl
    rw [← toByteArray_eq, dif_pos text.isValidUTF8, Option.some.injEq]
    exact String.toByteArray_inj.mp rfl

/-- A code without ambiguous beginnings. -/
theorem isPrefix_of_encode_append
    {front chars : List Char} {rest : List UInt8}
    (hstarts : encode front ++ rest = encode chars) : front <+: chars := by
  apply List.isPrefix_of_utf8Encode_append_eq_utf8Encode ⟨rest.toArray⟩
  rw [utf8Encode_eq, utf8Encode_eq, ← hstarts]
  apply ByteArray.ext
  simp

/-- The first bytes of an encoded text decode to the characters before the cut
when the cut is between two characters, and to nothing otherwise. -/
theorem fromUTF8?_take_encode_iff
    {chars : List Char} {n : ℕ} {text : String} :
    String.fromUTF8? ⟨((encode chars).take n).toArray⟩ = some text ↔
      text.toList <+: chars ∧
        (encode text.toList).length = min n (encode chars).length := by
  rw [fromUTF8?_eq_some_iff]
  constructor
  · intro htake
    refine ⟨@isPrefix_of_encode_append _ _ ((encode chars).drop n) ?_, ?_⟩
    · rw [← htake, List.take_append_drop]
    · rw [← htake, List.length_take]
  · rintro ⟨⟨back, rfl⟩, hlength⟩
    rw [encode_append] at hlength ⊢
    rw [List.length_append] at hlength
    rcases le_or_gt (encode text.toList).length n with hle | hgt
    · have hrest : ((encode back).take (n - (encode text.toList).length)) =
          [] := by
        apply List.eq_nil_of_length_eq_zero
        rw [List.length_take]
        omega
      rw [List.take_append, hrest, List.append_nil, List.take_of_length_le hle]
    · omega

end Utf8
