import Legible.Text.Blank
import Legible.Text.Dotted
import Mathlib.Data.List.DropRight
import Mathlib.Data.List.TakeWhile

/-!
# Dotted names and their last segment

What dividing a dotted name keeps. The last segment is what stands after the last dot
(`simpleName_append`), and the segments put one behind the other are the name again
(`dotted_segments`). Trimming takes nothing from a text that ends in something visible.
-/

namespace Legible.Text

variable {s sep first rest front : String} {cs left name tail last : List Char}
  {parts : List String} {c mark : Char} {p : Char → Bool} {k : Nat}

/-! ## The last segment -/

theorem ne_of_mem_reverse (h : mark ∉ cs) : ∀ c ∈ cs.reverse, decide (c ≠ mark) = true := by
  intro c hc
  rw [decide_eq_true_eq]
  rintro rfl
  exact h (List.mem_reverse.mp hc)

theorem simpleName_of_toList (hs : s.toList = left ++ '.' :: name) (hname : '.' ∉ name) :
    simpleName s = String.ofList name := by
  have hback : s.toList.reverse = name.reverse ++ '.' :: left.reverse := by simp [hs]
  rw [simpleName, hback, List.takeWhile_append_of_pos (ne_of_mem_reverse hname)]
  simp

theorem simpleName_of_notMem (h : '.' ∉ s.toList) : simpleName s = s := by
  have hall : s.toList.reverse.takeWhile (· ≠ '.') = s.toList.reverse :=
    List.takeWhile_eq_self_iff.mpr (ne_of_mem_reverse h)
  rw [simpleName, hall]
  simp

theorem exists_simpleName (s : String) :
    '.' ∉ (simpleName s).toList
      ∧ (s = simpleName s ∨ ∃ left, s.toList = left ++ '.' :: (simpleName s).toList) := by
  by_cases h : '.' ∈ s.toList
  · obtain ⟨name, left, hback, hname⟩ := List.eq_append_cons_of_mem (List.mem_reverse.mpr h)
    have hs : s.toList = left.reverse ++ '.' :: name.reverse := by
      have := congrArg List.reverse hback
      simpa using this
    have hsimple := simpleName_of_toList hs (by simpa using hname)
    rw [hsimple, String.toList_ofList]
    exact ⟨by simpa using hname, .inr ⟨_, hs⟩⟩
  · rw [simpleName_of_notMem h]
    exact ⟨h, .inl rfl⟩

theorem simpleName_of_append_notMem (hs : s.toList = left ++ tail) (htail : '.' ∉ tail) :
    ∃ mid, (simpleName s).toList = mid ++ tail := by
  refine ⟨(left.reverse.takeWhile (· ≠ '.')).reverse, ?_⟩
  rw [simpleName, String.toList_ofList, hs, List.reverse_append,
    List.takeWhile_append_of_pos (ne_of_mem_reverse htail)]
  simp

theorem simpleName_append (left rest : String) :
    simpleName (left ++ "." ++ rest) = simpleName rest := by
  obtain ⟨hdot, hcases⟩ := exists_simpleName rest
  have hs : ∃ before, (left ++ "." ++ rest).toList = before ++ '.' :: (simpleName rest).toList := by
    rcases hcases with heq | ⟨mid, hrest⟩
    · exact ⟨left.toList, by simp [← heq]⟩
    · exact ⟨left.toList ++ '.' :: mid, by simp [hrest]⟩
  obtain ⟨before, hs⟩ := hs
  rw [simpleName_of_toList hs hdot, String.ofList_toList]

/-! ## Dividing at the first dot -/

theorem notMem_of_splitFirst_eq_none (h : splitFirst s = none) : '.' ∉ s.toList := by
  simp only [splitFirst] at h
  split at h
  · next hnil =>
      intro hmem
      have := List.dropWhile_eq_nil_iff.mp hnil '.' hmem
      simp at this
  · cases h

theorem splitFirst_eq_some (h : splitFirst s = some (first, rest)) :
    s = first ++ "." ++ rest ∧ '.' ∉ first.toList := by
  simp only [splitFirst] at h
  split at h
  · cases h
  · next c tail hdrop =>
      simp only [Option.some.injEq, Prod.mk.injEq] at h
      obtain ⟨rfl, rfl⟩ := h
      have hc : c = '.' := by
        have := List.head?_dropWhile_not (fun c => decide (c ≠ '.')) s.toList
        rw [hdrop] at this
        simpa using this
      subst hc
      have hs := List.takeWhile_append_dropWhile (p := fun c => decide (c ≠ '.')) (l := s.toList)
      rw [hdrop] at hs
      refine ⟨?_, ?_⟩
      · rw [← String.toList_inj]
        simpa using hs.symm
      · rw [String.toList_ofList]
        intro hmem
        have := List.mem_takeWhile_imp hmem
        simp at this

/-! ## Segments -/

theorem pieces_ne_nil (sep : Char) (cs : List Char) : pieces sep cs ≠ [] := by
  cases cs with
  | nil => simp [pieces]
  | cons c cs =>
    unfold pieces
    split
    · simp
    · split <;> simp

theorem pieces_of_notMem {sep : Char} (h : sep ∉ cs) : pieces sep cs = [cs] := by
  induction cs with
  | nil => rfl
  | cons c cs ih =>
    rw [List.mem_cons, not_or] at h
    rw [pieces, if_neg (Ne.symm h.1), ih h.2]

theorem pieces_append_last {sep : Char} (left : List Char) (h : sep ∉ last) :
    pieces sep (left ++ sep :: last) = pieces sep left ++ [last] := by
  induction left with
  | nil => simp [pieces, pieces_of_notMem h]
  | cons c left ih =>
    rw [List.cons_append, pieces, pieces]
    split
    · rw [ih, List.cons_append]
    · rw [ih]
      cases hpieces : pieces sep left with
      | nil => exact absurd hpieces (pieces_ne_nil sep left)
      | cons p ps => rfl

theorem segments_ne_nil (s : String) : segments s ≠ [] := by
  simp [segments, pieces_ne_nil]

/-- Names put behind a text one by one, divided by dots. -/
def behind (text : String) (names : List String) : String :=
  names.foldl (fun text name => text ++ "." ++ name) text

theorem behind_append (left right : String) (names : List String) :
    behind (left ++ right) names = left ++ behind right names := by
  induction names generalizing right with
  | nil => rfl
  | cons name names ih =>
    rw [behind, List.foldl_cons, ← behind, String.append_assoc, String.append_assoc, ih]
    rw [← String.append_assoc]
    rfl

theorem dotted_cons (name : String) (names : List String) :
    dotted (name :: names) = behind name names := by
  induction names generalizing name with
  | nil => simp [dotted, behind]
  | cons next names ih =>
    rw [dotted, String.intercalate_cons_cons, ← dotted, ih, ← behind_append]
    rfl

theorem dotted_segments (s : String) : dotted (segments s) = s := by
  have hpieces : ∀ cs : List Char, ['.'].intercalate (pieces '.' cs) = cs := by
    intro cs
    induction cs with
    | nil => rfl
    | cons c cs ih =>
      unfold pieces
      split
      · next h => rw [List.intercalate_cons_of_ne_nil (pieces_ne_nil _ _), ih, h]; rfl
      · split
        · next hnil => exact absurd hnil (pieces_ne_nil '.' cs)
        · next p ps h =>
            rw [h] at ih
            rw [← ih]
            cases ps <;> simp [List.intercalate_cons_cons]
  rw [← String.toList_inj, dotted, String.toList_intercalate, segments, List.map_map]
  simpa using hpieces s.toList

theorem behind_segments (text rest : String) :
    behind text (segments rest) = text ++ "." ++ rest := by
  obtain ⟨seg, segs, hsegs⟩ := List.exists_cons_of_ne_nil (segments_ne_nil rest)
  have h := dotted_segments rest
  rw [hsegs, dotted_cons] at h
  rw [hsegs, behind, List.foldl_cons, ← behind, behind_append, h]

theorem behind_drop (name : String) (hk : 0 < k) :
    behind (dotted ((segments name).take k)) ((segments name).drop k) = name := by
  obtain ⟨seg, segs, hsegs⟩ := List.exists_cons_of_ne_nil (segments_ne_nil name)
  obtain ⟨k, rfl⟩ := Nat.exists_eq_succ_of_ne_zero hk.ne'
  rw [hsegs, List.take_succ_cons, List.drop_succ_cons, dotted_cons, behind, behind,
    ← List.foldl_append, List.take_append_drop, ← behind, ← dotted_cons, ← hsegs, dotted_segments]

theorem mem_of_mem_intercalate (h : c ∈ (sep.intercalate parts).toList) :
    c ∈ sep.toList ∨ ∃ part ∈ parts, c ∈ part.toList := by
  induction parts with
  | nil => simp at h
  | cons first rest ih =>
    cases rest with
    | nil => exact .inr ⟨first, List.mem_cons_self .., by simpa using h⟩
    | cons second rest =>
      rw [String.intercalate_cons_cons, String.toList_append, String.toList_append,
        List.mem_append, List.mem_append] at h
      rcases h with (h | h) | h
      · exact .inr ⟨first, List.mem_cons_self .., h⟩
      · exact .inl h
      · rcases ih h with h | ⟨part, hpart, h⟩
        · exact .inl h
        · exact .inr ⟨part, List.mem_cons_of_mem _ hpart, h⟩

theorem notMem_intercalate (hsep : c ∉ sep.toList) (h : ∀ part ∈ parts, c ∉ part.toList) :
    c ∉ (sep.intercalate parts).toList := by
  intro hmem
  rcases mem_of_mem_intercalate hmem with hmem | ⟨part, hpart, hmem⟩
  · exact hsep hmem
  · exact h part hpart hmem

theorem notMem_append_number (hfront : c ∉ front.toList) (hc : c.isDigit = false) (n : Nat) :
    c ∉ (front ++ toString n).toList := by
  rw [String.toList_append, Nat.toString_eq_repr, Nat.toList_repr, List.mem_append]
  rintro (hmem | hmem)
  · exact hfront hmem
  · have hdigit := Nat.isDigit_of_mem_toDigits (by decide) (by decide) hmem
    rw [hc] at hdigit
    cases hdigit

/-! ## Trimming -/

theorem dropWhile_append_cons (left : List Char) (hc : p c = false) (rest : List Char) :
    (left ++ c :: rest).dropWhile p = left.dropWhile p ++ c :: rest := by
  induction left with
  | nil => simp [hc]
  | cons d left ih =>
    cases hd : p d with
    | true => simpa [hd] using ih
    | false => simp [hd]

/-- Trimming takes nothing from a text that ends in something visible but blanks at its start. -/
theorem toList_trim (hs : s.toList = left ++ c :: name) (hc : isBlank c = false)
    (hname : ∀ d ∈ name, isBlank d = false) :
    (trim s).toList = left.dropWhile isBlank ++ c :: name := by
  have hend : ∀ cs : List Char, trimEnd (cs ++ c :: name) = cs ++ c :: name := by
    intro cs
    have hback : (cs ++ c :: name).reverse = (name.reverse ++ [c]) ++ cs.reverse := by simp
    obtain ⟨d, rest, hd⟩ : ∃ d rest, name.reverse ++ [c] = d :: rest :=
      List.exists_cons_of_ne_nil (by simp)
    have hblank : isBlank d = false := by
      have hmem : d ∈ name.reverse ++ [c] := by simp [hd]
      rcases List.mem_append.mp hmem with h | h
      · exact hname d (List.mem_reverse.mp h)
      · rw [List.mem_singleton.mp h]
        exact hc
    rw [trimEnd, hback, hd, List.cons_append, List.dropWhile_cons_of_neg (by simp [hblank]),
      ← List.cons_append, ← hd, ← hback, List.reverse_reverse]
  rw [trim, String.toList_ofList, trimStart, hs, dropWhile_append_cons left hc, hend]

theorem mem_dropWhile (hc : c ∈ cs) (hp : p c = false) : c ∈ cs.dropWhile p := by
  obtain ⟨left, right, rfl⟩ := List.append_of_mem hc
  rw [dropWhile_append_cons left hp]
  simp

theorem mem_trim (hc : c ∈ s.toList) (hblank : isBlank c = false) : c ∈ (trim s).toList := by
  rw [trim, String.toList_ofList, trimEnd, trimStart, List.mem_reverse]
  exact mem_dropWhile (List.mem_reverse.mpr (mem_dropWhile hc hblank)) hblank

theorem trimStart_trimEnd (cs : List Char) :
    trimStart (trimEnd (trimStart cs)) = trimEnd (trimStart cs) := by
  have hprefix : trimEnd (trimStart cs) <+: trimStart cs := List.rdropWhile_prefix isBlank _
  rw [trimStart, List.dropWhile_eq_self_iff]
  intro hlen
  have hpos := Nat.lt_of_lt_of_le hlen hprefix.length_le
  have hhead : (trimEnd (trimStart cs))[0] = (trimStart cs)[0] := hprefix.getElem hlen
  rw [hhead]
  exact List.dropWhile_get_zero_not _ cs hpos

theorem trim_trim (s : String) : trim (trim s) = trim s := by
  rw [trim, trim, String.toList_ofList, trimStart_trimEnd]
  exact congrArg String.ofList (List.rdropWhile_idempotent isBlank _)

end Legible.Text
