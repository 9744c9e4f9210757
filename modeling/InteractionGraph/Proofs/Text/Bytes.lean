import Mathlib.Data.String.Basic

/-!
# Texts and their bytes

Names are compared as texts: character by character, by code point.  The order of the bytes that
spell them in UTF-8 is the same order (`utf8_lt_utf8_iff`), so it does not matter which of the two
a statement about the least of some names means.

The reason is that the bytes of a character with a greater code point are greater at the first place
where they differ, whatever follows (`encode_append_lt`).  In particular they do differ somewhere,
so the bytes that follow are never compared.
-/

namespace InteractionGraph

/-- The bytes of a text in UTF-8. -/
def utf8 (text : String) : List UInt8 := text.toUTF8.data.toList

theorem utf8_eq_flatMap (text : String) :
    utf8 text = text.toList.flatMap String.utf8EncodeChar := by
  have hbytes : text.toUTF8 = (text.toList.flatMap String.utf8EncodeChar).toByteArray := by
    rw [String.toUTF8_eq_toByteArray, ← String.utf8Encode_toList]
    rfl
  rw [utf8, hbytes, List.data_toByteArray]

/-- A number is less than another if its digits to the base of 64 are, the leading ones first. -/
theorem digits_lt_of_lt {n m : Nat} (h : n < m) :
    n / 262144 < m / 262144 ∨ n / 262144 = m / 262144 ∧
      (n / 4096 % 64 < m / 4096 % 64 ∨ n / 4096 % 64 = m / 4096 % 64 ∧
        (n / 64 % 64 < m / 64 % 64 ∨ n / 64 % 64 = m / 64 % 64 ∧ n % 64 < m % 64)) := by
  omega

/-- The bytes of the greater character are greater, whatever follows. -/
theorem encode_append_lt {c d : Char} (h : c < d) (xs ys : List UInt8) :
    String.utf8EncodeChar c ++ xs < String.utf8EncodeChar d ++ ys := by
  have hlt : c.val.toNat < d.val.toNat := UInt32.lt_iff_toNat_lt.mp h
  have hmax : d.val.toNat < 0x110000 := by
    rcases d.valid with hlow | hhigh
    · exact hlow.trans (by decide)
    · exact hhigh.2
  have hdigits := digits_lt_of_lt hlt
  have hbyte : ∀ n, (n % 64 + 128) % 256 = n % 64 + 128 := by omega
  have hleadc : (c.val.toNat / 262144 % 8 + 240) % 256 = c.val.toNat / 262144 + 240 := by omega
  have hleadd : (d.val.toNat / 262144 % 8 + 240) % 256 = d.val.toNat / 262144 + 240 := by omega
  simp only [String.utf8EncodeChar]
  split_ifs <;>
    simp only [List.cons_append, List.nil_append, List.cons_lt_cons_iff, UInt8.lt_iff_toNat_lt,
      ← UInt8.toNat_inj, UInt8.toNat_ofNat', Nat.reducePow, hbyte, hleadc,
      hleadd] <;>
    omega

theorem encode_ne_nil (c : Char) : String.utf8EncodeChar c ≠ [] := by
  rw [← List.length_pos_iff, String.length_utf8EncodeChar]
  exact c.utf8Size_pos

theorem flatMap_encode_lt {cs ds : List Char} (h : cs < ds) :
    cs.flatMap String.utf8EncodeChar < ds.flatMap String.utf8EncodeChar := by
  induction h with
  | @nil d ds =>
    obtain ⟨byte, bytes, hbytes⟩ := List.exists_cons_of_ne_nil (encode_ne_nil d)
    rw [List.flatMap_cons, hbytes]
    exact List.nil_lt_cons _ _
  | rel h =>
    rw [List.flatMap_cons, List.flatMap_cons]
    exact encode_append_lt h _ _
  | cons h ih =>
    rw [List.flatMap_cons, List.flatMap_cons]
    exact ih.append_left _ _

/-- The order of texts is the order of their bytes. -/
theorem utf8_lt_utf8_iff {s t : String} : utf8 s < utf8 t ↔ s < t := by
  have hmono : ∀ {s t : String}, s < t → utf8 s < utf8 t := by
    intro s t h
    rw [utf8_eq_flatMap, utf8_eq_flatMap]
    exact flatMap_encode_lt h
  refine ⟨fun h => ?_, hmono⟩
  by_contra hle
  rcases (String.not_lt.mp hle).lt_or_eq with hlt | heq
  · exact List.lt_asymm h (hmono hlt)
  · rw [heq] at h
    exact List.lt_irrefl _ h

theorem utf8_le_utf8_iff {s t : String} : utf8 s ≤ utf8 t ↔ s ≤ t := by
  rw [← List.not_lt, utf8_lt_utf8_iff, String.not_lt]

end InteractionGraph
