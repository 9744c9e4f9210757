import InteractionGraph.Heap.Basic
import InteractionGraph.Proofs.Text.Hexadecimal
import InteractionGraph.Word.Display
import Mathlib.Data.List.Basic

/-!
# Words are known by their texts

The first four characters of a text tell in which form the word is printed, and its tag if it has
one (`heading_eq_iff`).  Behind them, the fields are read off one after the other, because no digit
is a colon.  So no two words have the same text, and a listing of the cells of a heap tells every
word in them.
-/

namespace InteractionGraph

theorem Tag.name_injective : Function.Injective Tag.name := by
  intro tag other h
  have hread := Tag.ofName?_name tag
  rw [h, Tag.ofName?_name] at hread
  exact (Option.some.inj hread).symm

namespace Word

open Text

variable {word other : Word} {tag : Tag}

/-! ## Heading and body -/

/-- What the text of a word begins with: the form in which it is printed. -/
def heading (word : Word) : List Char :=
  match word.tag? with
  | some tag => tag.name.toList ++ [':']
  | none => if word = void then ['V', 'O', 'I', 'D'] else ['R', 'A', 'W', ':']

/-- What the text of a word goes on with: the numerals in it. -/
def body (word : Word) : List Char :=
  match word.tag? with
  | some _ =>
    '0' :: 'x' :: (hexadecimal word.label ++ ':' :: '0' :: 'x' :: hexadecimal word.payload)
  | none => if word = void then [] else '0' :: 'x' :: paddedHexadecimal 16 word.bits.toNat

theorem toList_text (word : Word) : word.text.toList = word.heading ++ word.body := by
  unfold text heading body
  cases word.tag? with
  | some tag => simp
  | none => by_cases hvoid : word = void <;> simp [hvoid, rawText]

theorem length_heading (word : Word) : word.heading.length = 4 := by
  unfold heading
  cases word.tag? with
  | some tag => cases tag <;> rfl
  | none => by_cases hvoid : word = void <;> simp [hvoid]

theorem heading_of_tag? (h : word.tag? = some tag) : word.heading = tag.name.toList ++ [':'] := by
  rw [heading, h]

theorem heading_of_none (h : word.tag? = none) :
    word.heading = if word = void then ['V', 'O', 'I', 'D'] else ['R', 'A', 'W', ':'] := by
  rw [heading, h]

/-- No tag is printed like what has no tag. -/
theorem heading_ne (h : word.tag? = some tag) (hother : other.tag? = none) :
    word.heading ≠ other.heading := by
  rw [heading_of_tag? h, heading_of_none hother]
  split <;> cases tag <;> decide

/-- Words are printed in the same form exactly if they have the same tag, or none, and only the zero
word is printed in its form. -/
theorem heading_eq_iff :
    word.heading = other.heading ↔ word.tag? = other.tag? ∧ (word = void ↔ other = void) := by
  cases hword : word.tag? with
  | some tag =>
    cases hother : other.tag? with
    | some tag' =>
      have hvoid : word ≠ void ∧ other ≠ void := by
        constructor <;> rintro rfl
        · cases hword
        · cases hother
      rw [heading_of_tag? hword, heading_of_tag? hother, List.append_cancel_right_eq,
        String.toList_inj, Tag.name_injective.eq_iff]
      simp [hvoid]
    | none => simp [heading_ne hword hother]
  | none =>
    cases hother : other.tag? with
    | some tag' => simp [(heading_ne hother hword).symm]
    | none =>
      rw [heading_of_none hword, heading_of_none hother]
      by_cases hv : word = void <;> by_cases hv' : other = void <;> simp [hv, hv']

/-! ## Words from their texts -/

/-- The numerals of a word with a tag are those of its label and its payload. -/
theorem eq_of_body_eq (hword : word.tag? = some tag) (hother : other.tag? = some tag)
    (h : word.body = other.body) : word = other := by
  have hcode : word.code = other.code :=
    (Tag.ofCode?_eq_some_iff.mp hword).symm.trans (Tag.ofCode?_eq_some_iff.mp hother)
  rw [body, body, hword, hother] at h
  simp only [List.cons.injEq, true_and] at h
  have hdigits : ':' ∉ '0' :: 'x' :: hexadecimal word.payload := by
    simpa using colon_notMem_hexadecimal word.payload
  obtain ⟨hlabel, -, hpayload⟩ :=
    (List.append_cons_inj_of_notMem (colon_notMem_hexadecimal _) hdigits).mp h
  simp only [List.cons.injEq, true_and] at hpayload
  exact ext_fields hcode (hexadecimal_injective hlabel) (hexadecimal_injective hpayload)

/-- No two words have the same text. -/
theorem text_injective : Function.Injective text := by
  intro word other h
  have hlists := congrArg String.toList h
  rw [toList_text, toList_text] at hlists
  obtain ⟨hheading, hbody⟩ :=
    List.append_inj hlists ((length_heading word).trans (length_heading other).symm)
  obtain ⟨htag, hvoid⟩ := heading_eq_iff.mp hheading
  cases hother : other.tag? with
  | some tag => exact eq_of_body_eq (htag.trans hother) hother hbody
  | none =>
    by_cases hv : other = void
    · rw [hvoid.mpr hv, hv]
    · rw [body, body, htag.trans hother, hother] at hbody
      simp only [if_neg hv, if_neg (mt hvoid.mp hv), List.cons.injEq, true_and] at hbody
      exact congrArg Word.mk (UInt64.toNat_inj.mp (paddedHexadecimal_injective 16 hbody))

end Word

/-! ## Listings of cells -/

/-- The cells of a heap in the order of their addresses, as they are printed. -/
def Heap.listing (heap : Heap) : List String := heap.cells.toList.map Word.text

/-- No two words are printed alike, whether with a tag, as the zero word or with all sixteen digits.
So two heaps have the same listing exactly if they hold the same words in the same cells. -/
theorem Heap.listing_determines_cells :
    Function.Injective Word.text ∧
      ∀ heap other : Heap, heap.listing = other.listing ↔ heap.cells = other.cells := by
  refine ⟨Word.text_injective, fun heap other => ?_⟩
  rw [listing, listing, Word.text_injective.list_map.eq_iff, Array.toList_inj]

end InteractionGraph
