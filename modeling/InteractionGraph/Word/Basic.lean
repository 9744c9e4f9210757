import InteractionGraph.Word.Tag
import InteractionGraph.Word.Operator

/-!
# Graph words

A node of the graph is written in one 64-bit word with three fields:

* the *code* of its tag, in the low 8 bits;
* a *label*, in the next 24 bits: the label of a duplication or superposition, the id of a
  constructor, the number of arms of a match, or the code of an operator;
* a *payload*, in the high 32 bits: the address of the node's cells, the id of a definition,
  or the value of an inline integer.

The fields are read and written as natural numbers, so that what a word says is arithmetic:
`toNat_bits` is the sum that the three fields make up.  `Word.pack` cuts a label or payload
that is too wide; `Word.encode?` refuses to, and is what the rest of the library writes with.
-/

namespace InteractionGraph

/-- A word of the graph. -/
structure Word where
  bits : UInt64
  deriving DecidableEq

namespace Word

/-- One more than the greatest label of a word. -/
def labelLimit : Nat := 16777216

/-- One more than the greatest payload of a word. -/
def payloadLimit : Nat := 4294967296

/-- Whether a number fits in the label field. -/
def FitsLabel (value : Nat) : Prop := value < labelLimit

instance (value : Nat) : Decidable (FitsLabel value) :=
  inferInstanceAs (Decidable (value < labelLimit))

/-! ## Reading the fields -/

/-- The low byte of a word. -/
def code (word : Word) : Nat := word.bits.toNat % 256

/-- The label field of a word. -/
def label (word : Word) : Nat := word.bits.toNat / 256 % labelLimit

/-- The payload field of a word. -/
def payload (word : Word) : Nat := word.bits.toNat / payloadLimit

/-- The tag of a word, if its low byte stands for one. -/
def tag? (word : Word) : Option Tag := Tag.ofCode? word.code

/-- The operator that the whole label field stands for.  A label above the operator codes
stands for none, whatever its low bits are. -/
def operator? (word : Word) : Option Operator := Operator.ofCode? word.label

/-! ## Writing the fields -/

/-- The word of the given fields, each cut to its width. -/
def ofFields (code label payload : Nat) : Word :=
  ⟨UInt64.ofNat (code % 256 + 256 * (label % labelLimit) +
    payloadLimit * (payload % payloadLimit))⟩

/-- The word of the given tag, label and payload; a label or payload that is too wide loses
its high bits. -/
def pack (tag : Tag) (label payload : Nat) : Word := ofFields tag.code label payload

/-- The word of the given tag, label and payload, if each fits in its field. -/
def encode? (tag : Tag) (label payload : Nat) : Option Word :=
  if label < labelLimit ∧ payload < payloadLimit then some (pack tag label payload) else none

/-- The same code and label with another payload, cut to its width. -/
def withPayload (word : Word) (payload : Nat) : Word := ofFields word.code word.label payload

/-- The word that is an address, before it is overwritten with a node. -/
def ofAddress (address : UInt64) : Word := ⟨address⟩

/-- What a cell holds that was handed out and not written yet. -/
def void : Word := ⟨0⟩

/-- The erasure node. -/
def era : Word := pack .era 0 0

/-- What a binder slot holds before anything is substituted for it. -/
def sub : Word := pack .sub 0 0

instance : Inhabited Word := ⟨void⟩

/-! ## The fields make up the word -/

theorem code_lt (word : Word) : word.code < 256 := Nat.mod_lt _ (by decide)

theorem label_lt (word : Word) : word.label < labelLimit := Nat.mod_lt _ (by decide)

theorem payload_lt (word : Word) : word.payload < payloadLimit := by
  have := word.bits.toNat_lt
  simp only [payload, payloadLimit]
  omega

/-- A word is the sum of its fields, each shifted to its place. -/
theorem toNat_bits (word : Word) :
    word.bits.toNat = word.code + 256 * word.label + payloadLimit * word.payload := by
  simp only [code, label, payload, labelLimit, payloadLimit]
  omega

private theorem toNat_bits_ofFields (code label payload : Nat) :
    (ofFields code label payload).bits.toNat =
      code % 256 + 256 * (label % labelLimit) + payloadLimit * (payload % payloadLimit) := by
  simp only [ofFields, UInt64.toNat_ofNat', labelLimit, payloadLimit]
  omega

@[simp]
theorem code_ofFields (code label payload : Nat) :
    (ofFields code label payload).code = code % 256 := by
  simp only [Word.code, toNat_bits_ofFields, labelLimit, payloadLimit]
  omega

@[simp]
theorem label_ofFields (code label payload : Nat) :
    (ofFields code label payload).label = label % labelLimit := by
  simp only [Word.label, toNat_bits_ofFields, labelLimit, payloadLimit]
  omega

@[simp]
theorem payload_ofFields (code label payload : Nat) :
    (ofFields code label payload).payload = payload % payloadLimit := by
  simp only [Word.payload, toNat_bits_ofFields, labelLimit, payloadLimit]
  omega

theorem tag?_pack (tag : Tag) (label payload : Nat) :
    (pack tag label payload).tag? = some tag := by
  rw [tag?, pack, code_ofFields, Nat.mod_eq_of_lt tag.code_lt, Tag.ofCode?_code]

/-- Two words with the same fields are the same word. -/
theorem ext_fields {w v : Word} (hcode : w.code = v.code) (hlabel : w.label = v.label)
    (hpayload : w.payload = v.payload) : w = v := by
  have h : w.bits.toNat = v.bits.toNat := by
    rw [toNat_bits, toNat_bits, hcode, hlabel, hpayload]
  cases w
  cases v
  simpa using UInt64.toNat_inj.mp h

@[simp]
theorem tag?_void : void.tag? = none := by decide

end Word

end InteractionGraph
