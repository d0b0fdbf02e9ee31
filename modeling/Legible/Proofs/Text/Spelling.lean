import Legible.Proofs.Text.Dimensions
import Legible.Proofs.Text.Dotted
import Mathlib.Data.String.Basic

/-!
# Texts over an alphabet

A text is over a set of characters when it has no other. What is cut out of such a text, or put
together from such texts, is over the set again. An alphabet is a set that also holds the printable
characters of ASCII, which every text of the library itself is written in, and what identifiers are
made of (`Alphabet`). So whatever is derived from sources over an alphabet is over it.
-/

namespace Legible

variable {source type base : String}

def Text.Over (S : Char → Prop) (s : String) : Prop := ∀ c ∈ s.toList, S c

def Text.isPrintable (c : Char) : Bool := 0x20 ≤ c.toNat && c.toNat ≤ 0x7E

/-- A set of characters that sources may be written in. -/
structure Alphabet (S : Char → Prop) : Prop where
  printable : ∀ c, Text.isPrintable c = true → S c
  identifier : ∀ c, continuesIdentifier c = true → S c
  lowercase : ∀ c, S c → ∀ d ∈ Text.lowercase c, S d

namespace Text

variable {S : Char → Prop} {s t : String} {cs : List Char}

open String.Pos.Raw.extract in
theorem mem_of_mem_go₁ {c : Char} {i start stop : String.Pos.Raw} (h : c ∈ go₁ cs i start stop) :
    c ∈ cs := by
  have hgo₂ : ∀ {cs : List Char} {i : String.Pos.Raw}, c ∈ go₂ cs i stop → c ∈ cs := by
    intro cs i h
    induction cs generalizing i with
    | nil => simp [go₂] at h
    | cons d cs ih =>
      rw [go₂] at h
      split at h
      · cases h
      · rcases List.mem_cons.mp h with rfl | h
        · exact List.mem_cons_self ..
        · exact List.mem_cons_of_mem _ (ih h)
  induction cs generalizing i with
  | nil => simp [go₁] at h
  | cons d cs ih =>
    rw [go₁] at h
    split at h
    · exact hgo₂ h
    · exact List.mem_cons_of_mem _ (ih h)

namespace Over

variable {parts : List String}

theorem of_subset (h : Over S s) (hsub : t.toList ⊆ s.toList) : Over S t :=
  fun c hc => h c (hsub hc)

theorem empty : Over S "" := by simp [Over]

theorem append (hs : Over S s) (ht : Over S t) : Over S (s ++ t) := by
  simpa [Over, or_imp, forall_and] using ⟨hs, ht⟩

theorem ofList (h : ∀ c ∈ cs, S c) : Over S (String.ofList cs) := by
  simpa [Over] using h

/-- What the library writes itself is printable. -/
theorem literal (hS : Alphabet S) (h : s.toList.all isPrintable = true) : Over S s :=
  fun c hc => hS.printable c (List.all_eq_true.mp h c hc)

theorem join (h : ∀ part ∈ parts, Over S part) : Over S (String.join parts) := by
  intro c hc
  rw [String.toList_join, List.mem_flatMap] at hc
  obtain ⟨part, hpart, hc⟩ := hc
  exact h part hpart c hc

theorem intercalate {sep : String} (hsep : Over S sep) (h : ∀ part ∈ parts, Over S part) :
    Over S (sep.intercalate parts) := by
  intro c hc
  rcases mem_of_mem_intercalate hc with hc | ⟨part, hpart, hc⟩
  · exact hsep c hc
  · exact h part hpart c hc

theorem simpleName (h : Over S s) : Over S (simpleName s) := by
  refine h.of_subset fun c hc => ?_
  rw [Text.simpleName, String.toList_ofList, List.mem_reverse] at hc
  exact List.mem_reverse.mp ((List.takeWhile_sublist _).subset hc)

theorem trim (h : Over S s) : Over S (trim s) := by
  refine h.of_subset fun c hc => ?_
  rw [Text.trim, String.toList_ofList, trimEnd, List.mem_reverse] at hc
  have hc := List.mem_reverse.mp ((List.dropWhile_sublist _).subset hc)
  exact (List.dropWhile_sublist _).subset hc

theorem of_append (h : Over S (s ++ t)) : Over S t := h.of_subset fun c hc => by simp [hc]

theorem brackets (hS : Alphabet S) (dims : Nat) : Over S (brackets dims) := by
  refine join fun part hpart => ?_
  rw [List.eq_of_mem_replicate hpart]
  exact literal hS (by decide)

theorem splitDims (h : Over S s) : Over S (splitDims s).1 := by
  refine ofList fun c hc => h c ?_
  have hc := List.mem_reverse.mp ((List.dropWhile_sublist _).subset hc)
  exact List.mem_reverse.mp ((peelBrackets_suffix _).subset hc)

theorem number (hS : Alphabet S) (n : Nat) : Over S (toString n) := by
  refine literal hS (List.all_eq_true.mpr fun c hc => ?_)
  have hdigit := Nat.isDigit_of_mem_toDigits (b := 10) (n := n) (by decide) (by decide)
    (by simpa using hc)
  obtain ⟨hlow, hhigh⟩ := Char.isDigit_iff_toNat.mp hdigit
  simp only [isPrintable, Bool.and_eq_true, decide_eq_true_eq]
  have hzero : '0'.toNat = 48 := rfl
  have hnine : '9'.toNat = 57 := rfl
  omega

/-- A part of a source is over its characters, wherever it is cut out. -/
theorem slice (h : Over S source) (span : Span) : Over S (slice source span) := by
  rw [Text.slice, String.Pos.Raw.extract]
  split
  · exact empty
  · exact ofList fun c hc => h c (mem_of_mem_go₁ hc)

end Over

end Text

open Text

variable {S : Char → Prop}

/-! ## Types as written -/

mutual

theorem over_typeTokens (h : Over S source) :
    ∀ n : Node, Over S (n.typeTokens source)
  | .mk label children => by
      rw [Node.typeTokens]
      split
      · exact .empty
      · split
        · exact h.slice _
        · exact over_typeTokensIn h children

theorem over_typeTokensIn (h : Over S source) :
    ∀ ns : List Node, Over S (Node.typeTokensIn source ns)
  | [] => .empty
  | n :: ns => by
      rw [Node.typeTokensIn]
      exact (over_typeTokens h n).append (over_typeTokensIn h ns)

end

mutual

theorem over_typeText (h : Over S source) : ∀ n : Node, Over S (n.typeText source)
  | .mk label children => by
      rw [Node.typeText]
      split
      · exact over_firstTypeText h children
      · exact over_typeTokens h _

theorem over_firstTypeText (h : Over S source) :
    ∀ ns : List Node, Over S (Node.firstTypeText source ns)
  | [] => .empty
  | n :: ns => by
      rw [Node.firstTypeText]
      split
      · exact over_typeText h n
      · exact over_firstTypeText h ns

end

/-! ## Names derived from types -/

theorem over_wordFor (hS : Alphabet S) {word : String} (h : Over S type)
    (hword : Naming.wordFor type = some word) : Over S word := by
  unfold Naming.wordFor at hword
  split at hword
  case h_14 =>
    split at hword
    · cases hword
    · cases hword
      refine .ofList fun c hc => ?_
      rcases List.mem_append.mp hc with hc | hc
      · obtain ⟨d, hd, hc⟩ := List.mem_flatMap.mp hc
        exact hS.lowercase d (h d (List.mem_of_mem_take hd)) c hc
      · exact h c (List.mem_of_mem_drop hc)
  all_goals cases hword
  all_goals exact .literal hS (by decide)

theorem over_baseName (hS : Alphabet S) (h : Over S type)
    (hbase : Naming.baseName type = some base) : Over S base := by
  simp only [Naming.baseName, Option.map_eq_some_iff] at hbase
  obtain ⟨word, hword, rfl⟩ := hbase
  have hword : Over S word := over_wordFor hS h.splitDims.simpleName hword
  have harray : Over S (if (splitDims type).2 > 0 then word ++ "Array" else word) := by
    split
    · exact hword.append (.literal hS (by decide))
    · exact hword
  generalize (if (splitDims type).2 > 0 then word ++ "Array" else word) = name at harray ⊢
  cases isKeyword name with
  | true => exact harray.append (.literal hS (by decide))
  | false => exact harray

theorem over_candidate (hS : Alphabet S) (h : Over S base) (k : Nat) :
    Over S (Naming.candidate base k) := by
  unfold Naming.candidate
  split
  · exact h
  · exact h.append (.number hS _)

end Legible
