import InteractionGraph.Proofs.Text.Bytes
import InteractionGraph.Reading
import Mathlib.Data.List.Sort
import Mathlib.Data.List.Dedup

/-!
# Lists of what would have been accepted

A report lists texts, not expectations.  The list is in order and without repeats, so it is
determined by what is in it (`Report.listing_eq_iff`).  Of the texts that are of room none is ever
listed, and the slash and one more character are listed under texts that nothing else has.
-/

namespace InteractionGraph

open Parse Text

variable {expectation : Expectation} {expectations others : List Expectation} {text : String}

namespace Parse.Expectation

/-- The text of a character is that character between quotation marks. -/
theorem toList_text_character (c : Char) : (character c).text.toList = ['\'', c, '\''] := by
  simp [Expectation.text]

theorem text_eq_slash_iff : expectation.text = "'/'" ↔ expectation = .character '/' := by
  cases expectation with
  | character c =>
    rw [← String.toList_inj, toList_text_character]
    simp
  | construct what => cases what <;> decide
  | anything | somethingElse | endOfInput => decide

theorem text_eq_any_iff : expectation.text = "any" ↔ expectation = .anything := by
  cases expectation with
  | character c =>
    rw [← String.toList_inj, toList_text_character]
    simp
  | construct what => cases what <;> decide
  | anything | somethingElse | endOfInput => decide

/-- The texts of white space and of comments are those of nothing else. -/
theorem isLayout_of_text (h : expectation.text = "whitespace" ∨ expectation.text = "comment") :
    expectation.isLayout = true := by
  cases expectation with
  | character c =>
    rw [← String.toList_inj, ← String.toList_inj, toList_text_character] at h
    simp at h
  | construct what =>
    revert h
    cases what <;> decide
  | anything | somethingElse | endOfInput =>
    revert h
    decide

end Parse.Expectation

namespace Report

theorem mem_listing : text ∈ listing expectations ↔
    ∃ expectation ∈ expectations, expectation.isLayout = false ∧ expectation.text = text := by
  simp [listing, and_assoc]

theorem nodup_eraseDups (texts : List String) : texts.eraseDups.Nodup := by
  induction hlength : texts.length using Nat.strong_induction_on generalizing texts with
  | h length ih =>
    cases texts with
    | nil => exact List.nodup_nil
    | cons text texts =>
      have hle := List.length_filter_le (fun other => !other == text) texts
      rw [List.length_cons] at hlength
      rw [List.eraseDups_cons, List.nodup_cons]
      refine ⟨?_, ih _ (by omega) _ rfl⟩
      simp [List.mem_eraseDups]

/-- What is listed is in order and without repeats. -/
theorem pairwise_listing (expectations : List Expectation) :
    (listing expectations).Pairwise (· < ·) := by
  have hle : (listing expectations).Pairwise (· ≤ ·) := List.pairwise_mergeSort' (· ≤ ·) _
  have hne : (listing expectations).Nodup := by
    rw [listing, (List.mergeSort_perm _ _).nodup_iff]
    exact nodup_eraseDups _
  exact hle.imp₂ (fun _ _ hle hne => lt_of_le_of_ne hle hne) hne

/-- A list is determined by what is in it. -/
theorem listing_eq_iff : listing expectations = listing others ↔
    ∀ text, text ∈ listing expectations ↔ text ∈ listing others := by
  constructor
  · intro h text
    rw [h]
  · intro h
    exact (pairwise_listing expectations).eq_of_mem_iff (pairwise_listing others) h

end Report

end InteractionGraph
