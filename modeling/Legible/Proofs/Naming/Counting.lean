import Legible.Proofs.Loop
import Legible.Proofs.Naming.Candidates
import Mathlib.Algebra.GroupWithZero.Nat

/-!
# Counting with 32 bits

The number behind a derived name is counted with 32 bits, from 2 on, and the search has no other
bound. `count` is one turn of it. The number after the greatest one is the least one, unless the
count is `checked`: then it fails before it gets there.

So the search ends with the first free candidate just if that has a number that can be counted to
(`suggest_first_free`), which is so whenever fewer than 2147483646 names are taken. With more it can
fail, and unchecked it can go on for ever, though only finitely many are taken
(`suggestion_never_ends`).
-/

namespace Legible

namespace Naming

inductive Suggestion where
  | nothing
  | name (text : String)
  /-- The numbers are used up. -/
  | overflow
deriving Repr, DecidableEq

def numbered (base : String) (n : Int32) : String := base ++ toString n.toInt

/-- One turn of the search, at the number `n`. -/
def count (checked : Bool) (taken : String → Bool) (base : String) (n : Int32) :
    Suggestion ⊕ Int32 :=
  if checked && n == Int32.maxValue then .inl .overflow
  else if taken (numbered base n) then .inr (n + 1)
  else .inl (.name (numbered base n))

/-- The suggestion for a symbol, if the search for it ends. -/
def suggestion (checked : Bool) (taken : String → Bool) (s : Symbol) : Part Suggestion :=
  if !s.kind.isVariable || !isMeaningless s.declaredName then .some .nothing
  else
    match s.declaredType.bind baseName with
    | none => .some .nothing
    | some base => if taken base then loop (count checked taken base) 2 else .some (.name base)

variable {checked : Bool} {taken : String → Bool} {base : String} {s : Symbol} {j k : Nat}

/-! ## The search among the candidates -/

theorem numbered_ofNat (hk : k ≠ 0) (hlt : k + 1 < 2 ^ 31) :
    numbered base (Int32.ofNat (k + 1)) = candidate base k := by
  rw [numbered, candidate, if_neg hk, Int32.toInt_ofNat_of_lt hlt]
  rfl

theorem ofNat_ne_maxValue (hlt : k + 1 < 2 ^ 31 - 1) :
    (Int32.ofNat (k + 1) == Int32.maxValue) = false := by
  rw [beq_eq_false_iff_ne, ne_eq, ← Int32.toInt_inj, Int32.toInt_ofNat_of_lt (by omega),
    Int32.toInt_maxValue]
  omega

theorem count_candidate (hk : k ≠ 0) (hlt : k + 1 < 2 ^ 31 - 1) :
    count checked taken base (Int32.ofNat (k + 1))
      = if taken (candidate base k) then .inr (Int32.ofNat (k + 1 + 1))
        else .inl (.name (candidate base k)) := by
  rw [count, ofNat_ne_maxValue hlt, Bool.and_false, if_neg Bool.false_ne_true,
    numbered_ofNat hk (by omega), Int32.ofNat_add (k + 1)]
  rfl

/-- The count goes past the candidates that are taken. -/
theorem mem_loop_of_taken {r : Suggestion} (hk : k ≠ 0) (hkj : k ≤ j) (hj : j ≤ 2 ^ 31 - 2)
    (htaken : ∀ i < j, taken (candidate base i) = true)
    (h : r ∈ loop (count checked taken base) (Int32.ofNat (j + 1))) :
    r ∈ loop (count checked taken base) (Int32.ofNat (k + 1)) := by
  induction hd : j - k generalizing k with
  | zero =>
    obtain rfl : k = j := by omega
    exact h
  | succ d ih =>
    refine mem_loop_of_next ?_ (ih k.succ_ne_zero (by omega) (by omega))
    rw [count_candidate hk (by omega), if_pos (htaken k (by omega))]

theorem exists_ofNat (n : Int32) : ∃ k < 2 ^ 32, n = Int32.ofNat k :=
  ⟨n.toBitVec.toNat, n.toBitVec.isLt, by simp⟩

/-- Unchecked, the count comes to every number. -/
theorem dom_loop_iff (n : Int32) :
    (loop (count false taken base) n).Dom ↔ ∃ m, taken (numbered base m) = false := by
  constructor
  · intro hdom
    obtain ⟨m, hm⟩ := exists_stop_of_mem_loop (Part.get_mem hdom)
    refine ⟨m, Bool.eq_false_iff.mpr fun htaken => ?_⟩
    rw [count, Bool.false_and, if_neg Bool.false_ne_true, if_pos htaken] at hm
    cases hm
  · rintro ⟨m, hfree⟩
    obtain ⟨d, -, hd⟩ := exists_ofNat (m - n)
    replace hd : n + Int32.ofNat d = m := by rw [← hd, Int32.add_comm, Int32.sub_add_cancel]
    rw [Part.dom_iff_mem]
    -- a free number is met on the way to `m`, or at `m`
    induction d generalizing n with
    | zero =>
      obtain rfl : n = m := by simpa using hd
      exact ⟨_, mem_loop_of_stop (by rw [count, hfree]; rfl)⟩
    | succ d ih =>
      cases htaken : taken (numbered base n) with
      | false => exact ⟨_, mem_loop_of_stop (by rw [count, htaken]; rfl)⟩
      | true =>
        rw [Nat.succ_eq_one_add, Int32.ofNat_add, ← Int32.add_assoc] at hd
        obtain ⟨r, hr⟩ := ih (n + 1) hd
        exact ⟨r, mem_loop_of_next (by rw [count, htaken]; rfl) hr⟩

end Naming

/-! ## Suggestions -/

namespace NamingPolicy

open Naming

variable {taken : List String} {s : Symbol} {name base : String} {k : Nat}

theorem suggest_eq_none_iff (taken : List String) (s : Symbol) :
    typeDerived.suggest taken s = none
      ↔ s.kind.isVariable = false ∨ isMeaningless s.declaredName = false
        ∨ s.declaredType.bind baseName = none := by
  rw [suggest]
  cases s.kind.isVariable with
  | false => simp
  | true =>
    cases isMeaningless s.declaredName with
    | false => simp
    | true =>
      cases s.declaredType.bind baseName with
      | none => simp
      | some base => simpa using Option.isSome_iff_ne_none.mp (isSome_freeName taken base)

theorem suggestion_eq_nothing (h : typeDerived.suggest taken s = none) (checked : Bool) :
    suggestion checked taken.contains s = .some .nothing := by
  rw [suggestion]
  rcases (suggest_eq_none_iff taken s).mp h with h | h | h <;> simp [h]

/-- A search is begun where a name is suggested. -/
theorem suggestion_eq_loop (h : typeDerived.suggest taken s = some name)
    (hbase : s.declaredType.bind baseName = some base) (checked : Bool) :
    suggestion checked taken.contains s
      = if base ∈ taken then loop (count checked taken.contains base) 2 else .some (.name base) := by
  have hsome := Option.ne_none_iff_isSome.mpr (Option.isSome_of_eq_some h)
  rw [ne_eq, suggest_eq_none_iff, not_or, not_or, Bool.not_eq_false, Bool.not_eq_false] at hsome
  simp [suggestion, hsome.1, hsome.2.1, hbase]

/-- The search comes to the number of the name, or the numbers are used up before. -/
theorem suggestion_of_free (h : typeDerived.suggest taken s = some (candidate base k))
    (hbase : s.declaredType.bind baseName = some base) (hfree : candidate base k ∉ taken)
    (hbefore : ∀ j < k, candidate base j ∈ taken) :
    if k < 2 ^ 31 - 2 then
      ∀ checked, .name (candidate base k) ∈ suggestion checked taken.contains s
    else .overflow ∈ suggestion true taken.contains s
      ∧ ((suggestion false taken.contains s).Dom ↔ ∃ n, numbered base n ∉ taken) := by
  simp only [suggestion_eq_loop h hbase]
  cases k with
  | zero =>
    rw [if_pos (by decide)]
    intro checked
    rw [if_neg (show base ∉ taken from hfree)]
    exact Part.mem_some _
  | succ k =>
    have htaken : ∀ i < k + 1, taken.contains (candidate base i) = true := fun i hi =>
      List.contains_iff_mem.mpr (hbefore i hi)
    simp only [if_pos (show base ∈ taken from hbefore 0 k.succ_pos)]
    split
    · next hlt =>
        refine fun checked => mem_loop_of_taken Nat.one_ne_zero (by omega) (by omega) htaken
          (mem_loop_of_stop ?_)
        rw [count_candidate k.succ_ne_zero (by omega), if_neg (by simpa using hfree)]
    · next hge =>
        refine ⟨mem_loop_of_taken (j := 2 ^ 31 - 2) Nat.one_ne_zero (by omega) (by omega)
          (fun i hi => htaken i (by omega)) (mem_loop_of_stop rfl), ?_⟩
        simp [dom_loop_iff]

/-- For any names that are taken, finitely many, and any symbol: nothing is suggested just if the
symbol is no parameter or local variable, is called something with a meaning, has no declared type
or one without a name for variables. Otherwise the name is the first of `base`, `base2`, `base3`, …
that is not taken. The count with 32 bits ends with the same while it can get to its number; then it
fails, or starts again from the least number and ends just if one of all its numbers is free. -/
theorem suggest_first_free (taken : List String) (s : Symbol) :
    (typeDerived.suggest taken s = none
        ↔ ¬ (s.kind = .parameter ∨ s.kind = .localVariable) ∨ isMeaningless s.declaredName = false
          ∨ s.declaredType = none ∨ ∃ type, s.declaredType = some type ∧ baseName type = none)
      ∧ (typeDerived.suggest taken s = none →
        ∀ checked, suggestion checked taken.contains s = .some .nothing)
      ∧ ∀ name, typeDerived.suggest taken s = some name →
        ∃ type base k, s.declaredType = some type ∧ baseName type = some base
          ∧ name = candidate base k ∧ name ∉ taken ∧ (∀ j < k, candidate base j ∈ taken)
          ∧ k ≤ taken.length
          ∧ if k < 2 ^ 31 - 2 then ∀ checked, .name name ∈ suggestion checked taken.contains s
            else .overflow ∈ suggestion true taken.contains s
              ∧ ((suggestion false taken.contains s).Dom ↔ ∃ n, numbered base n ∉ taken) := by
  have hkind : s.kind.isVariable = true ↔ s.kind = .parameter ∨ s.kind = .localVariable := by
    cases s.kind <;> decide
  refine ⟨?_, suggestion_eq_nothing, fun name h => ?_⟩
  · rw [suggest_eq_none_iff, ← hkind, Bool.not_eq_true, Option.bind_eq_none_iff]
    cases s.declaredType <;> simp
  · obtain ⟨type, base, k, htype, hbase, rfl, hfree, hbefore⟩ := exists_candidate_of_suggest h
    exact ⟨type, base, k, htype, hbase, rfl, hfree, hbefore, le_length_of_taken hbefore,
      suggestion_of_free h (by rw [htype, Option.bind_some, hbase]) hfree hbefore⟩

def Sample.parameter : Symbol where
  key := "A.f(int)#a"
  kind := .parameter
  declaredName := "a"
  declaredType := some "int"

/-- The second name for an `int` is free. -/
theorem suggest_first_free_int :
    let s := Sample.parameter
    typeDerived.suggest ["num", "num3"] s = some "num2"
      ∧ ∀ checked, .name "num2" ∈ suggestion checked ["num", "num3"].contains s := by
  intro s
  have hname : typeDerived.suggest ["num", "num3"] s = some "num2" := by decide +kernel
  obtain ⟨_, _, k, -, -, -, -, -, hlength, hcount⟩ :=
    (suggest_first_free ["num", "num3"] s).2.2 _ hname
  rw [if_pos (Nat.lt_of_le_of_lt hlength (by decide))] at hcount
  exact ⟨hname, hcount⟩

/-- With all numbers taken, the count fails or never ends. -/
theorem suggestion_never_ends :
    let s := Sample.parameter
    ∃ taken : List String, .overflow ∈ suggestion true taken.contains s
      ∧ ¬ (suggestion false taken.contains s).Dom := by
  intro s
  let taken := "num" :: (List.range (2 ^ 32)).map fun k => numbered "num" (Int32.ofNat k)
  have hnumbered : ∀ n, numbered "num" n ∈ taken := by
    intro n
    obtain ⟨k, hk, rfl⟩ := exists_ofNat n
    exact List.mem_cons_of_mem _ (List.mem_map.mpr ⟨k, List.mem_range.mpr hk, rfl⟩)
  have hbase : s.declaredType.bind baseName = some "num" := by decide +kernel
  have hsome : typeDerived.suggest taken s ≠ none := fun hnone => by
    rw [suggest_eq_none_iff, hbase] at hnone
    revert hnone
    decide
  obtain ⟨name, hname⟩ := Option.ne_none_iff_exists'.mp hsome
  obtain ⟨type, base, k, htype, hbase', rfl, hfree, hbefore⟩ := exists_candidate_of_suggest hname
  obtain rfl : base = "num" := by
    rw [htype, Option.bind_some, hbase'] at hbase
    exact Option.some.inj hbase
  -- a candidate that can be counted to is taken
  have hge : ¬ k < 2 ^ 31 - 2 := fun hlt => hfree <| by
    cases k with
    | zero => exact List.mem_cons_self
    | succ k => exact @numbered_ofNat "num" _ k.succ_ne_zero (by omega) ▸ hnumbered _
  have hcount := suggestion_of_free hname hbase hfree hbefore
  rw [if_neg hge] at hcount
  exact ⟨taken, hcount.1, fun hdom => (hcount.2.mp hdom).elim fun n hn => hn (hnumbered n)⟩

end NamingPolicy

end Legible
