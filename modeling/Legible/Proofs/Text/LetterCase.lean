import Legible.Text.Letter
import Legible.Text.LetterCase
import Legible.Text.Numeral
import Mathlib.Tactic.Common

/-!
# Lower case keeps letters and numerals

The tables of letters and numerals are ranges, that of lower case is made of runs with a fixed
distance. So it is a check of the tables, run by run, that a letter stays a letter and a numeral a
numeral in lower case. The one exception has no run: the capital I with a dot above becomes two
characters, and the second is a mark.
-/

namespace Legible.Text

/-! ## Membership in ranges -/

namespace Ranges

/-- No range is empty and each starts beyond the one before. -/
def isOrdered : Ranges → Bool
  | [] => true
  | [(lo, hi)] => Nat.ble lo hi
  | (lo, hi) :: (lo', hi') :: rest =>
    Nat.ble lo hi && Nat.blt hi lo' && isOrdered ((lo', hi') :: rest)

def reaching (n : Nat) : Ranges → Ranges
  | [] => []
  | r :: rest => if Nat.ble n r.2 then r :: rest else reaching n rest

variable {rs : Ranges} {r : Nat × Nat} {n : Nat}

theorem isOrdered_cons (h : isOrdered (r :: rs) = true) :
    isOrdered rs = true ∧ ∀ s ∈ rs, r.1 ≤ r.2 ∧ r.2 < s.1 := by
  induction rs generalizing r with
  | nil => exact ⟨rfl, fun s hs => absurd hs List.not_mem_nil⟩
  | cons next rs ih =>
    simp only [isOrdered, Bool.and_eq_true, Nat.ble_eq, Nat.blt_eq] at h
    obtain ⟨⟨hr, hnext⟩, hrest⟩ := h
    refine ⟨hrest, fun s hs => ⟨hr, ?_⟩⟩
    rcases List.mem_cons.mp hs with rfl | hs
    · exact hnext
    · have hlater := (ih hrest).2 s hs
      omega

theorem exists_of_contains (h : rs.contains n = true) : ∃ r ∈ rs, r.1 ≤ n ∧ n ≤ r.2 := by
  induction rs with
  | nil => cases h
  | cons r rs ih =>
    rw [contains] at h
    split at h
    · cases h
    · next hlo =>
        split at h
        · next hhi => exact ⟨r, List.mem_cons_self, Nat.not_lt.mp hlo, hhi⟩
        · obtain ⟨s, hs, hn⟩ := ih h
          exact ⟨s, List.mem_cons_of_mem _ hs, hn⟩

theorem contains_of_mem (hrs : rs.isOrdered = true) (hr : r ∈ rs) (hlo : r.1 ≤ n)
    (hhi : n ≤ r.2) : rs.contains n = true := by
  induction rs with
  | nil => cases hr
  | cons first rs ih =>
    obtain ⟨htail, hlater⟩ := isOrdered_cons hrs
    rw [contains]
    rcases List.mem_cons.mp hr with rfl | hr
    · rw [if_neg (Nat.not_lt.mpr hlo), if_pos hhi]
    · have hbefore := hlater r hr
      rw [if_neg (by omega), if_neg (by omega)]
      exact ih htail hr

theorem mem_reaching_or_lt (h : r ∈ rs) : r ∈ rs.reaching n ∨ r.2 < n := by
  induction rs with
  | nil => cases h
  | cons first rs ih =>
    rw [reaching]
    split
    · exact .inl h
    · next hbefore =>
        rcases List.mem_cons.mp h with rfl | h
        · exact .inr (by simpa using hbefore)
        · exact ih h

theorem reaching_suffix (n : Nat) (rs : Ranges) : rs.reaching n <:+ rs := by
  induction rs with
  | nil => exact List.suffix_refl _
  | cons first rs ih =>
    rw [reaching]
    split
    · exact List.suffix_refl _
    · exact ih.trans (List.suffix_cons first rs)

theorem isOrdered_of_suffix {rs' : Ranges} (h : rs.isOrdered = true) (hsuffix : rs' <:+ rs) :
    rs'.isOrdered = true := by
  obtain ⟨before, rfl⟩ := hsuffix
  induction before with
  | nil => exact h
  | cons first before ih => exact ih (isOrdered_cons h).1

end Ranges

/-! ## The checks of the tables -/

def lowered (run : CaseRun × Nat) (n : Nat) : Nat := run.2 + (n - run.1.first)

def leadsInto (rs : Ranges) (run : CaseRun × Nat) : Bool :=
  match rs.reaching run.2 with
  | r :: _ => Nat.ble r.1 run.2 && Nat.ble (lowered run run.1.last) r.2
  | [] => false

/-- Whether no code point of the run lies in a range. -/
def avoids (rs : Ranges) (run : CaseRun × Nat) : Bool :=
  match rs.reaching run.1.first with
  | r :: _ => Nat.blt run.1.last r.1
  | [] => true

/-- Whether the run takes each of its members that lies in a range to one that does. -/
def keepsEach (rs : Ranges) (run : CaseRun × Nat) : Bool :=
  (List.range ((run.1.last - run.1.first) / run.1.step + 1)).all fun i =>
    !rs.contains (run.1.first + i * run.1.step) || rs.contains (run.2 + i * run.1.step)

def keeps (rs : Ranges) (run : CaseRun × Nat) : Bool :=
  leadsInto rs run || avoids rs run || keepsEach rs run

def leadsToChars (run : CaseRun × Nat) : Bool :=
  Nat.blt (lowered run run.1.last) 0xD800
    || Nat.ble 0xE000 run.2 && Nat.blt (lowered run run.1.last) 0x110000

/-- Lower case leads from none of the characters in the ranges out of them. -/
structure Kept (rs : Ranges) : Prop where
  ordered : rs.isOrdered = true
  runs : lowercaseRuns.all (keeps rs) = true

theorem kept_letterRanges : Kept letterRanges := ⟨by decide +kernel, by decide +kernel⟩

theorem kept_numeralRanges : Kept numeralRanges := ⟨by decide +kernel, by decide +kernel⟩

theorem leadsToChars_lowercaseRuns : lowercaseRuns.all leadsToChars = true := by decide +kernel

section Runs

variable {rs : Ranges} {run : CaseRun × Nat} {n : Nat}

theorem CaseRun.contains_iff {r : CaseRun} :
    r.contains n = true ↔ (r.first ≤ n ∧ n ≤ r.last) ∧ (n - r.first) % r.step = 0 := by
  simp [CaseRun.contains]

theorem not_contains_of_avoids (hrs : rs.isOrdered = true) (h : avoids rs run = true)
    (hfirst : run.1.first ≤ n) (hlast : n ≤ run.1.last) : rs.contains n ≠ true := by
  intro hcontains
  obtain ⟨s, hs, hlo, hhi⟩ := Ranges.exists_of_contains hcontains
  have hmem : s ∈ rs.reaching run.1.first :=
    (Ranges.mem_reaching_or_lt hs).resolve_right (by omega)
  unfold avoids at h
  have hordered := Ranges.isOrdered_of_suffix hrs (Ranges.reaching_suffix run.1.first rs)
  split at h
  · next r later hreaching =>
      rw [hreaching] at hmem hordered
      rw [Nat.blt_eq] at h
      rcases List.mem_cons.mp hmem with rfl | hmem
      · omega
      · have hlater := (Ranges.isOrdered_cons hordered).2 s hmem
        omega
  · next hreaching =>
      rw [hreaching] at hmem
      cases hmem

theorem contains_lowered (hrs : rs.isOrdered = true) (h : keeps rs run = true)
    (hn : run.1.contains n = true) (hcontains : rs.contains n = true) :
    rs.contains (lowered run n) = true := by
  obtain ⟨⟨hfirst, hlast⟩, hstep⟩ := CaseRun.contains_iff.mp hn
  simp only [keeps, Bool.or_eq_true] at h
  rcases h with (h | h) | h
  · unfold leadsInto at h
    split at h
    · next r later hreaching =>
        simp only [Bool.and_eq_true, Nat.ble_eq, lowered] at h
        have hr : r ∈ rs :=
          (Ranges.reaching_suffix run.2 rs).subset (hreaching ▸ List.mem_cons_self)
        exact Ranges.contains_of_mem hrs hr (by unfold lowered; omega) (by unfold lowered; omega)
    · cases h
  · exact absurd hcontains (not_contains_of_avoids hrs h hfirst hlast)
  · -- the members of a run are counted by its step
    have hmem : (n - run.1.first) / run.1.step
        ∈ List.range ((run.1.last - run.1.first) / run.1.step + 1) := by
      rw [List.mem_range, Nat.lt_succ_iff]
      exact Nat.div_le_div_right (by omega)
    have heach := List.all_eq_true.mp h _ hmem
    rw [Nat.div_mul_cancel (Nat.dvd_of_mod_eq_zero hstep), Nat.add_sub_cancel' hfirst,
      hcontains] at heach
    simpa [lowered] using heach

/-- What the run makes of its members are characters. -/
theorem toNat_lowered (h : leadsToChars run = true) (hn : run.1.contains n = true) :
    (Char.ofNat (lowered run n)).toNat = lowered run n := by
  obtain ⟨⟨hfirst, hlast⟩, -⟩ := CaseRun.contains_iff.mp hn
  simp only [leadsToChars, Bool.or_eq_true, Bool.and_eq_true, Nat.blt_eq, Nat.ble_eq, lowered] at h
  have hvalid : (lowered run n).isValidChar := by
    unfold lowered Nat.isValidChar
    omega
  rw [Char.ofNat, dif_pos hvalid]
  rfl

end Runs

/-! ## Characters -/

/-- Lower case keeps a character in the ranges, the capital I with a dot above apart. -/
theorem Kept.contains_lowercase {rs : Ranges} (h : Kept rs) {c d : Char}
    (hc : rs.contains c.toNat = true) (hne : c.toNat ≠ 0x130) (hd : d ∈ lowercase c) :
    rs.contains d.toNat = true := by
  unfold lowercase at hd
  rw [if_neg hne] at hd
  split at hd
  · next run target hfind =>
      have hrun := List.mem_of_find?_eq_some hfind
      have hn := List.find?_some hfind
      rw [List.mem_singleton.mp hd]
      change rs.contains (Char.ofNat (lowered (run, target) c.toNat)).toNat = true
      rw [toNat_lowered (List.all_eq_true.mp leadsToChars_lowercaseRuns _ hrun) hn]
      exact contains_lowered h.ordered (List.all_eq_true.mp h.runs _ hrun) hn hc
  · rwa [List.mem_singleton.mp hd]

theorem lowercase_ne_nil (c : Char) : lowercase c ≠ [] := by
  unfold lowercase
  split
  · exact List.cons_ne_nil _ _
  · split <;> exact List.cons_ne_nil _ _

end Legible.Text
