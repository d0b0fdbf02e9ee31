import Legible.Proofs.Naming.Hygiene

/-!
# How derived names are made

A name that the policy gives is put together from three parts: a word for the simple name of the
type, a mark for an array or behind a keyword, and a number (`Derivation`). There is always a free
one (`isSome_freeName`), so the policy suggests a name to every variable that is called something
without meaning and whose type has a word (`isSome_suggest_iff`).
-/

namespace Legible.Naming

variable {base : String} {k : Nat}

def simpleType (type : String) : String := Text.simpleName (Text.splitDims type).1

/-- What may stand between the word and the number of a derived name. -/
def marks : List String := ["", "Array", "Value"]

structure Derivation (type : String) where
  word : String
  mark : String
  number : Nat
  wordFor : wordFor (simpleType type) = some word
  mark_mem : mark ∈ marks
  isKeyword_stem : isKeyword (word ++ mark) = false
  mark_eq_empty_iff : mark = "" ↔ (Text.splitDims type).2 = 0 ∧ isKeyword word = false

def Derivation.name {type : String} (e : Derivation type) : String :=
  candidate (e.word ++ e.mark) e.number

/-! ## Bases -/

theorem isKeyword_append_eq_false (mark : String)
    (h : ∀ k ∈ keywords, ¬ mark.toList <:+ k.toList) (word : String) :
    isKeyword (word ++ mark) = false := by
  rw [isKeyword, List.contains_eq_mem, decide_eq_false_iff_not]
  intro hmem
  refine h _ hmem ?_
  rw [String.toList_append]
  exact List.suffix_append _ _

/-- A name for a type is its word with a mark, and no keyword. -/
theorem exists_mark_of_baseName {type : String} (h : baseName type = some base) :
    ∃ word mark, wordFor (simpleType type) = some word ∧ mark ∈ marks ∧ base = word ++ mark
      ∧ isKeyword base = false
      ∧ (mark = "" ↔ (Text.splitDims type).2 = 0 ∧ isKeyword word = false) := by
  have harray := isKeyword_append_eq_false "Array" (by decide)
  have hvalue := isKeyword_append_eq_false "Value" (by decide)
  simp only [baseName, Option.map_eq_some_iff] at h
  obtain ⟨word, hword, rfl⟩ := h
  rcases Nat.eq_zero_or_pos (Text.splitDims type).2 with hdims | hdims
  · simp only [hdims, gt_iff_lt, Nat.lt_irrefl, if_false]
    cases hkeyword : isKeyword word with
    | true =>
      exact ⟨word, "Value", hword, by decide, by simp, by simpa using hvalue word, by simp [hkeyword]⟩
    | false =>
      exact ⟨word, "", hword, by decide, by simp, by simpa using hkeyword, by simp [hkeyword]⟩
  · exact ⟨word, "Array", hword, by decide, by simp [hdims, harray], by simp [hdims, harray],
      by simp [Nat.ne_of_gt hdims]⟩

theorem isSome_baseName (type : String) :
    (baseName type).isSome = (wordFor (simpleType type)).isSome := by
  simp only [baseName, Option.isSome_map]
  rfl

/-! ## Free names -/

theorem isDigit_of_mem_toString {n : Nat} {c : Char} (h : c ∈ (toString n).toList) :
    c.isDigit = true := by
  rw [Nat.toString_eq_repr, Nat.toList_repr] at h
  exact Nat.isDigit_of_mem_toDigits (by decide) (by decide) h

theorem toList_toString_ne_nil (n : Nat) : (toString n).toList ≠ [] := by
  rw [Nat.toString_eq_repr, Nat.toList_repr]
  exact Nat.toDigits_ne_nil

theorem candidate_injective {j : Nat} (h : candidate base j = candidate base k) : j = k := by
  have hnumber (n : Nat) : base ≠ base ++ toString n := fun heq => by
    have hlist := congrArg String.toList heq
    rw [String.toList_append, List.self_eq_append_right] at hlist
    exact toList_toString_ne_nil n hlist
  unfold candidate at h
  split at h <;> split at h
  · omega
  · exact absurd h (hnumber _)
  · exact absurd h.symm (hnumber _)
  · have hdigits := Nat.repr_inj.mp (String.append_right_inj base |>.mp h)
    omega

theorem mem_of_searchFree_eq_none {taken : List String} {tries : Nat}
    (h : searchFree taken base tries k = none) : ∀ j < tries, candidate base (k + j) ∈ taken := by
  induction tries generalizing k with
  | zero => exact fun j hj => absurd hj (Nat.not_lt_zero j)
  | succ tries ih =>
    rw [searchFree] at h
    split at h
    · next htaken =>
        intro j hj
        cases j with
        | zero => simpa using htaken
        | succ j => simpa [Nat.add_comm, Nat.add_left_comm] using ih h j (by omega)
    · cases h

theorem le_length_of_taken {taken : List String} (h : ∀ j < k, candidate base j ∈ taken) :
    k ≤ taken.length := by
  have hnodup : ((List.range k).map (candidate base)).Nodup :=
    List.nodup_range.map fun _ _ => candidate_injective
  have hsub : (List.range k).map (candidate base) ⊆ taken := by
    intro name hname
    obtain ⟨j, hj, rfl⟩ := List.mem_map.mp hname
    exact h j (List.mem_range.mp hj)
  have hlength := (hnodup.subperm hsub).length_le
  rwa [List.length_map, List.length_range] at hlength

/-- One more candidate than there are taken names is enough. -/
theorem isSome_freeName (taken : List String) (base : String) :
    (freeName taken base).isSome = true := by
  rw [Option.isSome_iff_ne_none]
  intro hnone
  have hlength := le_length_of_taken fun j hj => by
    simpa using mem_of_searchFree_eq_none hnone j hj
  omega

end Naming

/-! ## Suggestions -/

namespace NamingPolicy

open Naming

variable {policy : NamingPolicy} {taken : List String} {s : Symbol} {name : String}

theorem exists_derivation_of_suggest (h : policy.suggest taken s = some name) :
    ∃ type, s.declaredType = some type ∧ ∃ e : Derivation type, e.name = name := by
  obtain ⟨type, base, number, htype, hbase, hname, -, -⟩ := exists_candidate_of_suggest h
  obtain ⟨word, mark, hword, hmark, rfl, hkeyword, hdims⟩ := exists_mark_of_baseName hbase
  exact ⟨type, htype, ⟨word, mark, number, hword, hmark, hkeyword, hdims⟩, hname.symm⟩

/-- Whether a variable gets a name does not depend on the names that are taken. -/
theorem isSome_suggest_iff (hkind : s.kind.isVariable = true) :
    (typeDerived.suggest taken s).isSome = true
      ↔ isMeaningless s.declaredName = true
        ∧ ((s.declaredType.map simpleType).bind wordFor).isSome = true := by
  simp only [suggest, hkind, Bool.not_true, Bool.false_or]
  cases isMeaningless s.declaredName with
  | false => simp
  | true =>
    cases hword : s.declaredType with
    | none => simp
    | some type =>
      have hbase := isSome_baseName type
      cases hb : baseName type with
      | none => simpa [hb] using hbase
      | some base => simpa [hb, isSome_freeName] using hbase

end NamingPolicy

end Legible
