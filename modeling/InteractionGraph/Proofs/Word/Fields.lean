import InteractionGraph.Word.Basic
import Mathlib.Data.Nat.Bitwise
import Mathlib.Data.Set.Function

/-!
# Fields and bits

The fields of a word are defined by division and remainder, and a word is made as the sum of its
fields.  In the bits the same is done with masks and shifts (`cutsFields`, `bits_pack`).

What is packed is read again, and a word with a tag is packed from what is read of it.  So the words
with a tag are as good as the triples of a tag, a label and a payload that fit (`bijOn_pack`).
Words without a tag have a code, a label and a payload all the same, and another payload leaves the
rest as it is.
-/

namespace InteractionGraph.Word

variable {word : Word} {tag : Tag}

/-! ## Masks and shifts -/

/-- Bits that do not overlap are added. -/
theorem or_shiftLeft_eq_add {low : Nat} (high width : Nat) (h : low < 2 ^ width) :
    low ||| high <<< width = low + high * 2 ^ width := by
  rw [Nat.lor_comm, ← Nat.shiftLeft_add_eq_or_of_lt h, Nat.shiftLeft_eq, Nat.add_comm]

/-- The fields are cut out of the bits: the lowest 8, the 24 above them, and the highest 32. -/
theorem cutsFields (word : Word) :
    word.code = (word.bits &&& 0xff).toNat ∧
      word.label = (word.bits >>> 8 &&& 0xffffff).toNat ∧
      word.payload = (word.bits >>> 32).toNat := by
  have hcode : word.bits.toNat &&& (2 ^ 8 - 1) = word.bits.toNat % 2 ^ 8 :=
    Nat.and_two_pow_sub_one_eq_mod _ 8
  have hlabel : word.bits.toNat >>> 8 &&& (2 ^ 24 - 1) = word.bits.toNat >>> 8 % 2 ^ 24 :=
    Nat.and_two_pow_sub_one_eq_mod _ 24
  refine ⟨?_, ?_, ?_⟩
  · simpa [code] using hcode.symm
  · simpa [label, labelLimit, Nat.shiftRight_eq_div_pow] using hlabel.symm
  · simp [payload, payloadLimit, Nat.shiftRight_eq_div_pow]

/-- A field that is masked fits behind the bits before it, so that shifting it cuts nothing off. -/
theorem toNat_masked_shiftLeft (field mask shift : UInt64) (width : Nat)
    (hmask : mask.toNat = 2 ^ width - 1) (hshift : shift.toNat < 64)
    (hfits : width + shift.toNat ≤ 64) :
    ((field &&& mask) <<< shift).toNat = (field.toNat % 2 ^ width) <<< shift.toNat := by
  have hfield : field.toNat % 2 ^ width < 2 ^ width := Nat.mod_lt _ (Nat.two_pow_pos width)
  have hlt : (field.toNat % 2 ^ width) <<< shift.toNat < 2 ^ 64 := by
    calc (field.toNat % 2 ^ width) <<< shift.toNat
        = field.toNat % 2 ^ width * 2 ^ shift.toNat := Nat.shiftLeft_eq _ _
      _ < 2 ^ width * 2 ^ shift.toNat := Nat.mul_lt_mul_of_pos_right hfield (Nat.two_pow_pos _)
      _ = 2 ^ (width + shift.toNat) := (Nat.pow_add 2 _ _).symm
      _ ≤ 2 ^ 64 := Nat.pow_le_pow_right (by decide) hfits
  rw [UInt64.toNat_shiftLeft, UInt64.toNat_and, hmask, Nat.and_two_pow_sub_one_eq_mod,
    Nat.mod_eq_of_lt hshift, Nat.mod_eq_of_lt hlt]

theorem toNat_shifted_payload (payload : UInt64) :
    ((payload &&& (0xffffffff : UInt64)) <<< (32 : UInt64)).toNat =
      (payload.toNat % payloadLimit) <<< 32 :=
  toNat_masked_shiftLeft payload 0xffffffff 32 32 (by decide) (by decide) (by decide)

/-- A word is made by shifting its fields to their places, each cut to its width. -/
theorem bits_pack (tag : Tag) (label payload : UInt64) :
    (pack tag label.toNat payload.toNat).bits =
      UInt64.ofNat tag.code ||| (label &&& (0xffffff : UInt64)) <<< (8 : UInt64) |||
        (payload &&& (0xffffffff : UInt64)) <<< (32 : UInt64) := by
  have hcode := tag.code_lt
  have hlabel : ((label &&& (0xffffff : UInt64)) <<< (8 : UInt64)).toNat =
      (label.toNat % labelLimit) <<< 8 :=
    toNat_masked_shiftLeft label 0xffffff 8 24 (by decide) (by decide) (by decide)
  have hlow := or_shiftLeft_eq_add (label.toNat % labelLimit) 8 hcode
  have hlt : tag.code + label.toNat % labelLimit * 2 ^ 8 < 2 ^ 32 := by
    have := Nat.mod_lt label.toNat (show 0 < labelLimit by decide)
    simp only [labelLimit] at *
    omega
  have hall := or_shiftLeft_eq_add (payload.toNat % payloadLimit) 32 hlt
  apply UInt64.toNat_inj.mp
  rw [toNat_bits, pack, code_ofFields, label_ofFields, payload_ofFields, Nat.mod_eq_of_lt hcode,
    UInt64.toNat_or, UInt64.toNat_or, hlabel, toNat_shifted_payload,
    UInt64.toNat_ofNat_of_lt' (by simp only [UInt64.size]; omega), hlow, hall]
  simp only [payloadLimit]
  omega

/-- Of a word that gets another payload, the lowest 32 bits are kept. -/
theorem bits_withPayload (word : Word) (payload : UInt64) :
    (word.withPayload payload.toNat).bits =
      word.bits &&& (0xffffffff : UInt64) |||
        (payload &&& (0xffffffff : UInt64)) <<< (32 : UInt64) := by
  have hmask : word.bits.toNat &&& (0xffffffff : UInt64).toNat = word.bits.toNat % 4294967296 :=
    Nat.and_two_pow_sub_one_eq_mod _ 32
  have hlow : word.bits.toNat % 4294967296 = word.code + 256 * word.label := by
    simp only [code, label, labelLimit]
    omega
  have hall := or_shiftLeft_eq_add (payload.toNat % payloadLimit) 32
    (show word.bits.toNat % 4294967296 < 2 ^ 32 by omega)
  apply UInt64.toNat_inj.mp
  rw [toNat_bits, withPayload, code_ofFields, label_ofFields, payload_ofFields,
    Nat.mod_eq_of_lt word.code_lt, Nat.mod_eq_of_lt word.label_lt, UInt64.toNat_or,
    toNat_shifted_payload, UInt64.toNat_and, hmask, hall, hlow]
  simp only [payloadLimit]
  omega

/-! ## What is packed is read again -/

variable {label payload : Nat}

theorem label_pack (h : label < labelLimit) : (pack tag label payload).label = label := by
  rw [pack, label_ofFields, Nat.mod_eq_of_lt h]

theorem payload_pack (h : payload < payloadLimit) : (pack tag label payload).payload = payload := by
  rw [pack, payload_ofFields, Nat.mod_eq_of_lt h]

/-- A word with a tag is packed from its fields. -/
theorem pack_of_tag? (h : word.tag? = some tag) : pack tag word.label word.payload = word := by
  have hcode : tag.code = word.code := Tag.ofCode?_eq_some_iff.mp h
  apply ext_fields
  · rw [pack, code_ofFields, Nat.mod_eq_of_lt tag.code_lt, hcode]
  · exact label_pack word.label_lt
  · exact payload_pack word.payload_lt

/-- The triples that fit are packed as the words with a tag, each of these once. -/
theorem bijOn_pack :
    Set.BijOn (fun fields : Tag × Nat × Nat => pack fields.1 fields.2.1 fields.2.2)
      {fields | fields.2.1 < labelLimit ∧ fields.2.2 < payloadLimit} {word | word.tag? ≠ none} := by
  refine ⟨?_, ?_, ?_⟩
  · rintro ⟨tag, label, payload⟩ -
    simp [tag?_pack]
  · rintro ⟨tag, label, payload⟩ ⟨hlabel, hpayload⟩ ⟨tag', label', payload'⟩
      ⟨hlabel', hpayload'⟩ heq
    have htags := congrArg tag? heq
    have hlabels := congrArg Word.label heq
    have hpayloads := congrArg Word.payload heq
    rw [tag?_pack, tag?_pack] at htags
    rw [label_pack hlabel, label_pack hlabel'] at hlabels
    rw [payload_pack hpayload, payload_pack hpayload'] at hpayloads
    exact Prod.ext (Option.some.inj htags) (Prod.ext hlabels hpayloads)
  · intro word hword
    obtain ⟨tag, htag⟩ := Option.ne_none_iff_exists'.mp hword
    exact ⟨(tag, word.label, word.payload), ⟨word.label_lt, word.payload_lt⟩, pack_of_tag? htag⟩

/-! ## Another payload, and operators -/

/-- With another payload, all other fields stay, whether the code stands for a tag or not. -/
theorem fields_withPayload (word : Word) (payload : Nat) :
    (word.withPayload payload).code = word.code ∧ (word.withPayload payload).label = word.label ∧
      (word.withPayload payload).payload = payload % payloadLimit := by
  refine ⟨?_, ?_, payload_ofFields _ _ _⟩
  · rw [withPayload, code_ofFields, Nat.mod_eq_of_lt word.code_lt]
  · rw [withPayload, label_ofFields, Nat.mod_eq_of_lt word.label_lt]

/-- The operator of a word is the one that the whole label is the code of. -/
theorem operator?_eq_some_iff {op : Operator} :
    word.operator? = some op ↔ word.label = op.code :=
  Operator.ofCode?_eq_some_iff.trans eq_comm

/-- To pack a tag, a label and a payload that fit is a bijection to the words with a tag, and to
read the fields is its inverse.  Another payload, cut to its width, takes the place of the old one
in any word, and an operator is known by the whole label.  All of this is about the bits: the fields
are cut out with the masks of 8 and 24 bits and with shifts, and put together in the same way. -/
theorem packs_fields :
    Set.BijOn (fun fields : Tag × Nat × Nat => pack fields.1 fields.2.1 fields.2.2)
        {fields | fields.2.1 < labelLimit ∧ fields.2.2 < payloadLimit} {word | word.tag? ≠ none} ∧
      (∀ tag label payload, label < labelLimit → payload < payloadLimit →
        (pack tag label payload).tag? = some tag ∧ (pack tag label payload).label = label ∧
          (pack tag label payload).payload = payload) ∧
      (∀ (word : Word) tag, word.tag? = some tag → pack tag word.label word.payload = word) ∧
      (∀ (word : Word) payload, (word.withPayload payload).payload = payload % payloadLimit ∧
        (word.withPayload payload).label = word.label ∧
        (word.withPayload payload).code = word.code ∧
        (word.withPayload payload).tag? = word.tag?) ∧
      (∀ (word : Word) op, word.operator? = some op ↔ word.label = op.code) ∧
      (∀ word : Word, word.code = (word.bits &&& 0xff).toNat ∧
        word.label = (word.bits >>> 8 &&& 0xffffff).toNat ∧
        word.payload = (word.bits >>> 32).toNat) ∧
      (∀ (tag : Tag) (label payload : UInt64), (pack tag label.toNat payload.toNat).bits =
        UInt64.ofNat tag.code ||| (label &&& (0xffffff : UInt64)) <<< (8 : UInt64) |||
          (payload &&& (0xffffffff : UInt64)) <<< (32 : UInt64)) ∧
      ∀ (word : Word) (payload : UInt64), (word.withPayload payload.toNat).bits =
        word.bits &&& (0xffffffff : UInt64) |||
          (payload &&& (0xffffffff : UInt64)) <<< (32 : UInt64) := by
  refine ⟨bijOn_pack, ?_, fun word tag => pack_of_tag?, ?_, fun word op => operator?_eq_some_iff,
    cutsFields, bits_pack, bits_withPayload⟩
  · intro tag label payload hlabel hpayload
    exact ⟨tag?_pack tag label payload, label_pack hlabel, payload_pack hpayload⟩
  · intro word payload
    obtain ⟨hcode, hlabel, hpayload⟩ := fields_withPayload word payload
    exact ⟨hpayload, hlabel, hcode, by rw [tag?, tag?, hcode]⟩

end InteractionGraph.Word
