import Legible.Naming.TypeDerived
import Legible.Proofs.Loop
import Mathlib.Data.List.TakeWhile

/-!
# Dimensions of a type text

Taking pairs of brackets off the end of a text is said backwards, in one pass. It takes what a loop
takes that looks at the end of the text again and again (`mem_loop_stripStep`), white space between
the pairs included. What is left has neither brackets nor white space at its end
(`ends_peelBrackets`), and with as many pairs behind it, it is taken apart the same way again
(`dimensions_round_trip`).
-/

namespace Legible.Text

variable {cs : List Char} {c : Char}

/-- A text that is not that of an array: no white space at its ends, and no pair of brackets at its
end. -/
structure IsElement (s : String) : Prop where
  start : ∀ c ∈ s.toList.head?, isBlank c = false
  stop : ∀ c ∈ s.toList.getLast?, isBlank c = false
  noBrackets : ¬ "[]".toList <:+ s.toList

/-- One step of taking brackets off the end of a text. -/
def stripStep : List Char × Nat → (String × Nat) ⊕ (List Char × Nat)
  | (base, dims) =>
    if "[]".toList <:+ base then .inr (trimEnd (base.take (base.length - 2)), dims + 1)
    else .inl (String.ofList base, dims)

/-! ## White space -/

theorem head?_trimStart (hc : c ∈ (trimStart cs).head?) : isBlank c = false := by
  have hhead := List.head?_dropWhile_not isBlank cs
  rw [show (cs.dropWhile isBlank).head? = some c from hc] at hhead
  exact hhead

theorem trimStart_eq_self (h : ∀ c ∈ cs.head?, isBlank c = false) : trimStart cs = cs := by
  cases cs with
  | nil => rfl
  | cons c cs => exact List.dropWhile_cons_of_neg (by simp [h c rfl])

/-! ## Backwards -/

theorem peelBrackets_suffix (cs : List Char) : (peelBrackets cs).1 <:+ cs := by
  fun_induction peelBrackets cs with
  | case1 => exact List.suffix_refl _
  | case2 rest back dims hrest ih =>
    rw [hrest] at ih
    exact ih.trans ((List.suffix_cons ..).trans (List.suffix_cons ..))
  | case3 d rest hne hblank ih => exact ih.trans (List.suffix_cons ..)
  | case4 d rest hne hblank => exact List.suffix_refl _

theorem not_brackets_first {rest : List Char}
    (h : ∀ rest', c = ']' → rest = '[' :: rest' → False) :
    ¬ "[]".toList.reverse <+: c :: rest := by
  rintro ⟨rest', heq⟩
  obtain ⟨rfl, rfl⟩ := List.cons.inj heq
  exact h rest' rfl rfl

/-- What is left begins with neither white space nor brackets. -/
theorem ends_peelBrackets (cs : List Char) :
    (∀ c ∈ (peelBrackets cs).1.head?, isBlank c = false)
      ∧ ¬ "[]".toList.reverse <+: (peelBrackets cs).1 := by
  fun_induction peelBrackets cs with
  | case1 => simp
  | case2 rest back dims hrest ih =>
    rw [hrest] at ih
    exact ih
  | case3 d rest hne hblank ih => exact ih
  | case4 d rest hne hblank => exact ⟨by simpa using hblank, not_brackets_first hne⟩

theorem peelBrackets_eq_self (hblank : ∀ c ∈ cs.head?, isBlank c = false)
    (hbrackets : ¬ "[]".toList.reverse <+: cs) : peelBrackets cs = (cs, 0) := by
  fun_cases peelBrackets cs with
  | case1 => rfl
  | case2 rest => exact absurd ⟨rest, rfl⟩ hbrackets
  | case3 d rest hne hd => exact absurd (hblank d rfl) (by simp [hd])
  | case4 d rest hne hd => rfl

theorem peelBrackets_brackets (dims : Nat) (back : List Char) :
    peelBrackets ((brackets dims).toList.reverse ++ back)
      = ((peelBrackets back).1, (peelBrackets back).2 + dims) := by
  induction dims generalizing back with
  | zero => rfl
  | succ dims ih =>
    have hreverse : (brackets (dims + 1)).toList.reverse ++ back
        = (brackets dims).toList.reverse ++ ']' :: '[' :: back := by
      simp [brackets, List.replicate_succ]
    rw [hreverse, ih, peelBrackets]
    simp only [Nat.add_assoc, Nat.add_comm 1]

theorem peelBrackets_cons_of_blank (hc : isBlank c = true) (back : List Char) :
    peelBrackets (c :: back) = peelBrackets back := by
  rw [peelBrackets, if_pos hc]
  rintro _ rfl
  exact absurd hc (by decide)

/-- White space in front of the text does not matter. -/
theorem peelBrackets_append {blanks : List Char} (hblanks : ∀ c ∈ blanks, isBlank c = true)
    (back : List Char) :
    trimStart (peelBrackets (back ++ blanks)).1.reverse = trimStart (peelBrackets back).1.reverse
      ∧ (peelBrackets (back ++ blanks)).2 = (peelBrackets back).2 := by
  fun_induction peelBrackets back with
  | case1 =>
    have hnil : peelBrackets blanks = ([], 0) := by
      induction blanks with
      | nil => rfl
      | cons c blanks ih =>
        obtain ⟨hc, hblanks⟩ := List.forall_mem_cons.mp hblanks
        rw [peelBrackets_cons_of_blank hc, ih hblanks]
    rw [List.nil_append, hnil]
    exact ⟨rfl, rfl⟩
  | case2 rest back dims hrest ih =>
    rw [hrest] at ih
    exact ⟨ih.1, congrArg (· + 1) ih.2⟩
  | case3 d rest hne hblank ih =>
    rw [List.cons_append, peelBrackets_cons_of_blank hblank]
    exact ih
  | case4 d rest hne hblank =>
    have hself : peelBrackets (d :: rest ++ blanks) = (d :: rest ++ blanks, 0) := by
      refine peelBrackets_eq_self (by simpa using hblank) (not_brackets_first ?_)
      intro rest' hd heq
      cases rest with
      | nil =>
        obtain rfl : blanks = '[' :: rest' := heq
        exact absurd (hblanks '[' List.mem_cons_self) (by decide)
      | cons d' rest => exact hne rest hd (congrArg (· :: rest) (List.cons.inj heq).1)
    rw [hself]
    refine ⟨?_, rfl⟩
    rw [List.reverse_append, trimStart, List.dropWhile_append_of_pos, trimStart]
    exact fun c hc => hblanks c (List.mem_reverse.mp hc)

/-! ## The loop -/

theorem mem_loop_stripStep (back : List Char) (dims : Nat) :
    (String.ofList (peelBrackets back).1.reverse, dims + (peelBrackets back).2)
      ∈ loop stripStep ((back.dropWhile isBlank).reverse, dims) := by
  fun_induction peelBrackets back generalizing dims with
  | case1 => exact mem_loop_of_stop rfl
  | case2 rest back dims' hrest ih =>
    rw [hrest] at ih
    refine mem_loop_of_next ?_ (by simpa [Nat.add_assoc, Nat.add_comm 1] using ih (dims + 1))
    have hback : ((']' :: '[' :: rest).dropWhile isBlank).reverse
        = rest.reverse ++ "[]".toList := by
      rw [List.dropWhile_cons_of_neg (by decide)]
      simp
    rw [hback, stripStep, if_pos (List.suffix_append ..)]
    simp [trimEnd]
  | case3 d rest hne hblank ih =>
    rw [List.dropWhile_cons_of_pos hblank]
    exact ih dims
  | case4 d rest hne hblank =>
    rw [List.dropWhile_cons_of_neg hblank]
    refine mem_loop_of_stop (if_neg fun hsuffix => not_brackets_first hne ?_)
    rwa [← List.reverse_suffix, List.reverse_reverse]

theorem head?_peelBrackets
    (hc : c ∈ (peelBrackets (trimStart cs).reverse).1.reverse.head?) : isBlank c = false := by
  have hprefix : (peelBrackets (trimStart cs).reverse).1.reverse <+: trimStart cs :=
    List.reverse_suffix.mp (by simpa using peelBrackets_suffix _)
  obtain ⟨rest, hrest⟩ := hprefix
  have hhead : c ∈ (trimStart cs).head? := by
    rw [← hrest, List.head?_append, show _ = some c from hc]
    rfl
  exact head?_trimStart hhead

/-- The text may as well be rid of the white space at its start before the brackets are taken. -/
theorem splitDims_eq (t : String) : splitDims t =
    (String.ofList (peelBrackets (trimStart t.toList).reverse).1.reverse,
      (peelBrackets (trimStart t.toList).reverse).2) := by
  have hsplit : (trimStart t.toList).reverse ++ (t.toList.takeWhile isBlank).reverse
      = t.toList.reverse := by
    rw [← List.reverse_append, trimStart, List.takeWhile_append_dropWhile]
  obtain ⟨hleft, hdims⟩ := peelBrackets_append
    (fun c hc => List.mem_takeWhile_imp (List.mem_reverse.mp hc)) (trimStart t.toList).reverse
  rw [hsplit] at hleft hdims
  rw [trimStart_eq_self fun c => head?_peelBrackets] at hleft
  exact Prod.ext (congrArg String.ofList hleft) hdims

theorem isElement_splitDims (t : String) : IsElement (splitDims t).1 := by
  obtain ⟨hblank, hbrackets⟩ := ends_peelBrackets (trimStart t.toList).reverse
  rw [splitDims_eq]
  constructor
  · rw [String.toList_ofList]
    exact fun c => head?_peelBrackets
  · rwa [String.toList_ofList, List.getLast?_reverse]
  · rw [← List.reverse_prefix]
    simpa using hbrackets

theorem splitDims_append_brackets {b : String} (h : IsElement b) (k : Nat) :
    splitDims (b ++ brackets k) = (b, k) := by
  have hself : peelBrackets b.toList.reverse = (b.toList.reverse, 0) := by
    refine peelBrackets_eq_self (by simpa using h.stop) fun hprefix => h.noBrackets ?_
    exact List.reverse_prefix.mp hprefix
  rw [splitDims, String.toList_append, List.reverse_append, peelBrackets_brackets, hself]
  simp [trimStart_eq_self h.start]

/-- A type text is its element type and a number of dimensions: the element type has neither white
space nor brackets at its ends, and brackets behind it are its dimensions. So the text and the one
that is made of its parts give a variable the same name, and the parts are those that a loop finds
which takes pairs of brackets for as long as there are some. -/
theorem dimensions_round_trip (t : String) :
    splitDims t ∈ loop stripStep ((trim t).toList, 0)
      ∧ IsElement (splitDims t).1
      ∧ (∀ b, IsElement b → ∀ k, splitDims (b ++ brackets k) = (b, k))
      ∧ Naming.baseName t = Naming.baseName ((splitDims t).1 ++ brackets (splitDims t).2) := by
  refine ⟨?_, isElement_splitDims t, fun b hb k => splitDims_append_brackets hb k, ?_⟩
  · rw [splitDims_eq, trim, String.toList_ofList, trimEnd]
    simpa using mem_loop_stripStep (trimStart t.toList).reverse 0
  · rw [Naming.baseName, Naming.baseName, splitDims_append_brackets (isElement_splitDims t)]

end Legible.Text
