import Legible.Source
import Mathlib.Data.String.Basic

/-!
# Slices of a text

Spans count bytes, proofs speak of characters. A span whose ends lie between characters cuts a text
in three, and the slice is the part in the middle.
-/

namespace Legible.Text

variable {n offset : Nat} {source : String} {left cs rest mid right : List Char} {c : Char}
  {span : Span}

/-- The characters of a text that starts at the byte `offset`, each with the byte that it starts
at. -/
def charStarts (offset : Nat) : List Char → List (Nat × Char)
  | [] => []
  | c :: cs => (offset, c) :: charStarts (offset + c.utf8Size) cs

/-- Whether a byte offset lies between the characters of a text, or at one of its ends. -/
def isBoundary (source : String) (n : Nat) : Bool :=
  n == String.utf8Len source.toList || (charStarts 0 source.toList).any (·.1 == n)

theorem mem_charStarts (left : List Char) (c : Char) (right : List Char) (offset : Nat) :
    (offset + String.utf8Len left, c) ∈ charStarts offset (left ++ c :: right) := by
  induction left generalizing offset with
  | nil => exact List.mem_cons_self ..
  | cons d left ih =>
    have := ih (offset + d.utf8Size)
    rw [List.cons_append, charStarts, String.utf8Len_cons]
    refine List.mem_cons_of_mem _ ?_
    convert this using 2
    omega

theorem exists_append_of_mem_charStarts (h : (n, c) ∈ charStarts offset cs) :
    ∃ left right, cs = left ++ right ∧ n = offset + String.utf8Len left := by
  induction cs generalizing offset with
  | nil => cases h
  | cons d cs ih =>
    rcases List.mem_cons.mp h with heq | h
    · exact ⟨[], d :: cs, rfl, by simp [(Prod.mk.inj heq).1]⟩
    · obtain ⟨left, right, rfl, hn⟩ := ih h
      refine ⟨d :: left, right, rfl, ?_⟩
      rw [hn, String.utf8Len_cons]
      omega

theorem exists_append_of_isBoundary (h : isBoundary source n = true) :
    ∃ left right, source.toList = left ++ right ∧ n = String.utf8Len left := by
  simp only [isBoundary, Bool.or_eq_true, beq_iff_eq, List.any_eq_true] at h
  rcases h with h | ⟨⟨m, c⟩, hmem, rfl⟩
  · exact ⟨source.toList, [], (List.append_nil _).symm, h⟩
  · obtain ⟨left, right, heq, hn⟩ := exists_append_of_mem_charStarts hmem
    exact ⟨left, right, heq, by simpa using hn⟩

/-- A boundary that is not before the rest of a text cuts the rest in two. -/
theorem exists_append_of_le (h : isBoundary source n = true)
    (hsource : source.toList = left ++ rest) (hn : String.utf8Len left ≤ n) :
    ∃ mid right, rest = mid ++ right ∧ n = String.utf8Len left + String.utf8Len mid := by
  obtain ⟨a, a', ha, rfl⟩ := exists_append_of_isBoundary h
  rw [ha] at hsource
  rcases List.append_eq_append_iff.mp hsource with ⟨x, rfl, rfl⟩ | ⟨x, rfl, rfl⟩
  · rw [String.utf8Len_append] at hn
    exact ⟨[], rest, rfl, by rw [String.utf8Len_append, String.utf8Len_nil]; omega⟩
  · exact ⟨x, a', rfl, String.utf8Len_append ..⟩

/-- The slice of a text in three parts is the part that the span covers. -/
theorem toList_slice (hsource : source.toList = left ++ (mid ++ right))
    (hstart : span.start = String.utf8Len left)
    (hstop : span.stop = span.start + String.utf8Len mid) : (slice source span).toList = mid := by
  have hsource' : source = String.ofList (left ++ mid ++ right) := by
    rw [List.append_assoc, ← hsource, String.ofList_toList]
  rw [slice, hstop, hstart, hsource', String.extract_of_valid, String.toList_ofList]

end Legible.Text
