import Legible.Proofs.Binding.Spelling
import Legible.Proofs.Layout.Fidelity

/-!
# Line endings are faithful

Sources are read with line feeds only. All that is written comes from characters of the sources and
from the library, so no token has a carriage return (`notMem_tokens`), and then the terminator that
is asked for can be put in and read back without loss. A text ends in one terminator, before which
no layout stands (`exists_emit_eq_append`).
-/

namespace Legible

open Layout

variable {c : BindingInput} {d : Dictionary} {policy : NamingPolicy} {t : Token}

/-! ## Texts without carriage returns -/

theorem Text.toNat_ofNat (n : Nat) : (Char.ofNat n).toNat = n ∨ (Char.ofNat n).toNat = 0 := by
  by_cases hvalid : n.isValidChar
  · rw [Char.ofNat, dif_pos hvalid]
    exact .inl rfl
  · rw [Char.ofNat, dif_neg hvalid]
    exact .inr rfl

/-- No text of the library and no identifier has a carriage return, and no character becomes one in
lower case. -/
theorem alphabet_ne_cr : Alphabet (· ≠ '\r') where
  printable := by
    rintro c hc rfl
    revert hc
    decide
  identifier := by
    rintro c hc rfl
    revert hc
    decide +kernel
  lowercase := by
    rintro c hc d hd rfl
    have htargets : ∀ run ∈ Text.lowercaseRuns, 13 < run.2 := by decide +kernel
    unfold Text.lowercase at hd
    split at hd
    · revert hd
      decide
    · split at hd
      · next run target hrun =>
          have htarget := htargets _ (List.mem_of_find?_eq_some hrun)
          have hcode := congrArg Char.toNat (List.mem_singleton.mp hd)
          have hcr : '\r'.toNat = 13 := rfl
          have hvalid := Text.toNat_ofNat (target + (c.toNat - run.first))
          omega
      · exact hc (List.mem_singleton.mp hd).symm

theorem Text.notMem_lineFeeds (cs : List Char) : '\r' ∉ Text.lineFeeds cs := by
  fun_induction Text.lineFeeds cs with
  | case1 => simp
  | case2 rest ih => simpa using ih
  | case3 c rest hpair ih =>
    rw [List.mem_cons, not_or]
    refine ⟨?_, ih⟩
    split
    · decide
    · next hc => exact fun heq => hc heq.symm

/-! ## Tokens -/

variable {S : Char → Prop}

theorem over_replacement? (hS : Alphabet S) (hc : c.Over S) {p : Place} {name : String}
    (h : (Symbols.ofUnit d policy c).replacement? d p = some name) : Text.Over S name := by
  unfold Symbols.replacement? at h
  split at h
  · next id _ =>
      obtain ⟨s, hs, h⟩ := Option.bind_eq_some_iff.mp h
      split at h
      · next hrenamed =>
          cases hchosen : s.chosenName with
          | none => simp [Symbol.isRenamed, hchosen] at hrenamed
          | some chosen =>
            have hname : s.displayName = chosen := by simp [Symbol.displayName, hchosen]
            rw [← Option.some.inj h, hname]
            exact Symbols.over_chosenName hS hc hs hchosen
      · cases h
  · exact Symbols.over_lookup? hS h
  · cases h

theorem text_mem_of_mem_tokensBelow {write : Place → String} {n : Node} {above : List Node}
    {depth : Nat} (h : t ∈ tokensBelow write above depth n) : ∃ p, t.text = write p := by
  induction n using Node.induction generalizing above depth with
  | mk label children ih =>
    rw [tokensBelow] at h
    split at h
    · split at h
      · rw [List.mem_singleton.mp h]
        exact ⟨_, rfl⟩
      · cases h
    · rw [tokensIn_eq_flatMap] at h
      obtain ⟨m, hm, h⟩ := List.mem_flatMap.mp h
      exact ih m hm h

theorem over_tokens (hS : Alphabet S) (hc : c.Over S)
    (h : t ∈ tokens c.unit (Symbols.ofUnit d policy c) d) : Text.Over S t.text := by
  obtain ⟨p, hp⟩ := text_mem_of_mem_tokensBelow h
  rw [hp, writtenText]
  split
  · cases hreplaced : (Symbols.ofUnit d policy c).replacement? d p with
    | none => exact hc.unit.text p
    | some name => exact over_replacement? hS hc hreplaced
  · exact hc.unit.text p

/-! ## The end of a text -/

/-- A text ends in one terminator, and what stands before it does not end in layout. -/
theorem exists_emit_eq_append (source : String) (ending : LineEnding) (ts : List Token) :
    ∃ body : String, emit source ending ts = body ++ ending.terminator
      ∧ ∀ c ∈ body.toList.getLast?, isLayoutChar c = false := by
  let written := ts.foldl (Emission.push source ending.terminator.toList) {}
  refine ⟨String.ofList (written.out.dropWhile isLayoutChar).reverse, ?_, fun c hc => ?_⟩
  · rw [emit, String.ofList_append, String.ofList_toList]
  · rw [String.toList_ofList, List.getLast?_reverse] at hc
    have hnot := List.head?_dropWhile_not isLayoutChar written.out
    rw [Option.mem_def.mp hc] at hnot
    simpa using hnot

/-- Every terminator can be had: for tokens without carriage returns, a text is the one with line
feeds after each of these has been replaced, reading it gives that one back, and it ends in one
terminator with no layout before it. The tokens of every source that was read are such. -/
theorem line_endings_faithful :
    (∀ (source : String) (ts : List Token), (∀ t ∈ ts, '\r' ∉ t.text.toList) →
      ∀ ending : LineEnding,
        (emit source ending ts).toList
            = withEndings ending.terminator.toList (emit source .lf ts).toList
          ∧ Text.normalizeLines (emit source ending ts) = emit source .lf ts
          ∧ ∃ body : String, emit source ending ts = body ++ ending.terminator
            ∧ ∀ c ∈ body.toList.getLast?, c ∉ [' ', '\t', '\r', '\n'])
      ∧ ∀ (d : Dictionary) (policy : NamingPolicy) (units : List SourceUnit),
        (∀ u ∈ units, ∃ text, u.source = Text.normalizeLines (Text.dropByteOrderMark text)) →
        ∀ a ∈ analyze d policy units, ∀ t ∈ tokens a.unit a.symbols d, '\r' ∉ t.text.toList := by
  refine ⟨fun source ts hts ending => ⟨emit_eq_withEndings source ending ts,
    normalizeLines_emit source ending hts, ?_⟩, ?_⟩
  · obtain ⟨body, hbody, hlast⟩ := exists_emit_eq_append source ending ts
    refine ⟨body, hbody, fun c hc hmem => ?_⟩
    have hlayout := hlast c hc
    simp only [List.mem_cons, List.not_mem_nil, or_false] at hmem
    rcases hmem with rfl | rfl | rfl | rfl <;> cases hlayout
  · intro d policy units hread a ha t ht hcr
    obtain ⟨c, hc, rfl⟩ := mem_analyze.mp ha
    have hunits : ∀ u ∈ units, u.Over (· ≠ '\r') := by
      intro u hu ch hch heq
      obtain ⟨text, htext⟩ := hread u hu
      rw [htext, Text.normalizeLines, String.toList_ofList, heq] at hch
      exact Text.notMem_lineFeeds _ hch
    obtain ⟨hunit, hindex⟩ := mem_inputs hc
    have hover : c.Over (· ≠ '\r') :=
      ⟨hunits c.unit (List.mem_of_getElem? hunit), hindex ▸ over_build alphabet_ne_cr hunits⟩
    exact over_tokens alphabet_ne_cr hover ht '\r' hcr rfl

/-- A class with a comment of two lines, read from a text with a byte order mark and two kinds of
terminators. -/
def Sample.remark : SourceUnit where
  path := "A.java"
  source := Text.normalizeLines (Text.dropByteOrderMark "\uFEFFclass A\x7b/*\r\n*/\r\x7d")
  root :=
    node 0 "program" 0 15 none [
     node 1 "class_declaration" 0 15 none [mark 2 "class" 0 5, name 3 6 7 "name",
      node 4 "class_body" 7 15 (some "body") [mark 5 "\x7b" 7 8,
       node 6 "block_comment" 8 13 none [], mark 7 "\x7d" 14 15]]]

theorem line_endings_faithful_remark :
    ∀ a ∈ analyze .empty .typeDerived [Sample.remark],
      (∀ t ∈ tokens a.unit a.symbols .empty, '\r' ∉ t.text.toList)
        ∧ emit a.unit.source .crlf (tokens a.unit a.symbols .empty)
          = "class A \x7b /*\r\n*/\r\n\x7d\r\n"
        ∧ Text.normalizeLines (emit a.unit.source .crlf (tokens a.unit a.symbols .empty))
          = emit a.unit.source .lf (tokens a.unit a.symbols .empty) := by
  intro a ha
  have hread : ∀ u ∈ [Sample.remark],
      ∃ text, u.source = Text.normalizeLines (Text.dropByteOrderMark text) := by
    intro u hu
    rw [List.mem_singleton.mp hu]
    exact ⟨_, rfl⟩
  have htokens := line_endings_faithful.2 .empty .typeDerived [Sample.remark] hread a ha
  have hemit := line_endings_faithful.1 a.unit.source _ htokens .crlf
  refine ⟨htokens, ?_, hemit.2.1⟩
  obtain rfl : a = { unit := Sample.remark, symbols := _ } := List.mem_singleton.mp ha
  decide +kernel

end Legible
