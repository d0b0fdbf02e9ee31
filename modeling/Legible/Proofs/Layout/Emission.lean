import Legible.Layout.Emit
import Mathlib.Data.String.Basic

/-!
# What emission does to characters

Three facts about `emit` that hold for every list of tokens, whatever their texts and spans are.

`visible_emit`: emission loses, adds and moves only blanks and terminators. It takes characters off
its own output where a line ends, and those are blanks.

`emit_eq_withEndings`: the terminator is a matter of the very last step. Every emission is the one
with line feeds, each of them replaced.

`normalizeLines_emit`: hence reading an output back gives the one with line feeds.

Each comes from a lemma about one pushed token; the run is the fold over it.
-/

namespace Legible.Layout

variable {cs eol out : List Char} {c : Char} {p : Char → Bool} {ts : List Token}

/-! ## Characters that are not layout -/

/-- The characters of a text that layout never touches: no spaces, tabs and terminators. -/
def visible (cs : List Char) : List Char := cs.filter fun c => !isLayoutChar c

@[simp] theorem visible_nil : visible [] = [] := rfl

@[simp] theorem visible_append (cs ds : List Char) :
    visible (cs ++ ds) = visible cs ++ visible ds := by
  simp [visible]

@[simp] theorem visible_reverse (cs : List Char) : visible cs.reverse = (visible cs).reverse := by
  simp [visible]

theorem visible_cons (c : Char) (cs : List Char) :
    visible (c :: cs) = if isLayoutChar c then visible cs else c :: visible cs := by
  cases h : isLayoutChar c <;> simp [visible, h]

theorem visible_eq_nil (h : ∀ c ∈ cs, isLayoutChar c = true) : visible cs = [] := by
  simpa [visible] using h

theorem isLayoutChar_of_isLineBlank (h : isLineBlank c = true) : isLayoutChar c = true := by
  simp [isLayoutChar, h]

theorem visible_dropWhile (hp : ∀ c, p c = true → isLayoutChar c = true) (cs : List Char) :
    visible (cs.dropWhile p) = visible cs := by
  induction cs with
  | nil => rfl
  | cons c cs ih =>
    rw [List.dropWhile_cons]
    split
    · next hc => rw [ih, visible_cons, if_pos (hp c hc)]
    · rfl

theorem toList_lf : LineEnding.lf.terminator.toList = ['\n'] := by decide

theorem toList_cr : LineEnding.cr.terminator.toList = ['\r'] := by decide

theorem toList_crlf : LineEnding.crlf.terminator.toList = ['\r', '\n'] := by decide

theorem eq_of_mem_terminator {ending : LineEnding} (h : c ∈ ending.terminator.toList) :
    c = '\r' ∨ c = '\n' := by
  cases ending with
  | lf => exact .inr (List.mem_singleton.mp (toList_lf ▸ h))
  | cr => exact .inl (List.mem_singleton.mp (toList_cr ▸ h))
  | crlf => exact List.mem_pair.mp (toList_crlf ▸ h)

theorem terminator_ne_nil (ending : LineEnding) : ending.terminator.toList ≠ [] := by
  cases ending <;> decide

theorem terminator_layout (ending : LineEnding) :
    ∀ c ∈ ending.terminator.toList, isLayoutChar c = true := by
  intro c hc
  rcases eq_of_mem_terminator hc with rfl | rfl <;> decide

@[simp] theorem visible_terminator (ending : LineEnding) : visible ending.terminator.toList = [] :=
  visible_eq_nil (terminator_layout ending)

theorem visible_writeText (ending : LineEnding) (text out : List Char) :
    visible (writeText ending.terminator.toList text out)
      = (visible text).reverse ++ visible out := by
  unfold writeText
  induction text generalizing out with
  | nil => simp
  | cons c text ih =>
    rw [List.foldl_cons, ih, visible_cons]
    by_cases hc : c = '\n'
    · subst hc
      simp [show isLayoutChar '\n' = true from by decide]
    · rw [if_neg hc, visible_cons]
      split <;> simp

theorem visible_writeGap (ending : LineEnding) (gap : Gap) (depth : Nat) (out : List Char) :
    visible (writeGap ending.terminator.toList gap depth out) = visible out := by
  have htabs : visible (List.replicate depth '\t') = [] := by
    refine visible_eq_nil fun c hc => ?_
    rw [List.eq_of_mem_replicate hc]
    decide
  have hend : visible (endLine ending.terminator.toList out) = visible out := by
    simp [endLine, visible_dropWhile fun _ => isLayoutChar_of_isLineBlank]
  cases gap with
  | glue => rfl
  | space => rw [writeGap, visible_cons, if_pos (by decide)]
  | newline => simp [writeGap, htabs, hend]
  | blank => simp [writeGap, htabs, hend]

theorem visible_push (source : String) (ending : LineEnding) (e : Emission) (t : Token) :
    visible (e.push source ending.terminator.toList t).out
      = (visible t.text.toList).reverse ++ visible e.out := by
  unfold Emission.push
  cases e.last with
  | none => exact visible_writeText ending _ _
  | some prev => exact (visible_writeText ending _ _).trans (by rw [visible_writeGap])

theorem visible_foldl_push (source : String) (ending : LineEnding) (ts : List Token)
    (e : Emission) :
    visible (ts.foldl (Emission.push source ending.terminator.toList) e).out
      = (ts.flatMap fun t => visible t.text.toList).reverse ++ visible e.out := by
  induction ts generalizing e with
  | nil => simp
  | cons t ts ih => rw [List.foldl_cons, ih, visible_push]; simp

/-- Emission keeps every character of every token that is not layout, in order, and adds none. -/
theorem visible_emit (source : String) (ending : LineEnding) (ts : List Token) :
    visible (emit source ending ts).toList = ts.flatMap fun t => visible t.text.toList := by
  simp [emit, visible_dropWhile, visible_foldl_push]

/-! ## Terminators -/

def withEndings (eol : List Char) (cs : List Char) : List Char :=
  cs.flatMap fun c => if c = '\n' then eol else [c]

@[simp] theorem withEndings_nil (eol : List Char) : withEndings eol [] = [] := rfl

@[simp] theorem withEndings_append (eol cs ds : List Char) :
    withEndings eol (cs ++ ds) = withEndings eol cs ++ withEndings eol ds := by
  simp [withEndings]

theorem withEndings_cons (eol : List Char) (c : Char) (cs : List Char) :
    withEndings eol (c :: cs) = (if c = '\n' then eol else [c]) ++ withEndings eol cs := by
  simp [withEndings]

theorem reverse_withEndings (eol cs : List Char) :
    (withEndings eol cs).reverse = withEndings eol.reverse cs.reverse := by
  induction cs with
  | nil => rfl
  | cons c cs ih =>
    rw [withEndings_cons, List.reverse_append, ih, List.reverse_cons, withEndings_append]
    congr 1
    by_cases hc : c = '\n' <;> simp [withEndings, hc]

theorem withEndings_eq_self (h : '\n' ∉ cs) : withEndings eol cs = cs := by
  induction cs with
  | nil => rfl
  | cons c cs ih =>
    rw [List.mem_cons, not_or] at h
    rw [withEndings_cons, ih h.2, if_neg fun hc => h.1 hc.symm]
    rfl

/-- Taking layout off the end of an output, which is held backwards, does not depend on the
terminator: where a line feed goes or stays, so does what stands for it. -/
theorem dropWhile_withEndings (hp : (∀ c ∈ eol, p c = p '\n') ∧ eol ≠ []) (out : List Char) :
    (withEndings eol out).dropWhile p = withEndings eol (out.dropWhile p) := by
  induction out with
  | nil => rfl
  | cons c out ih =>
    rw [withEndings_cons, List.dropWhile_cons]
    by_cases hc : c = '\n'
    · subst hc
      rw [if_pos rfl]
      split
      · next hn =>
          rw [List.dropWhile_append_of_pos fun c hc => (hp.1 c hc).trans hn, ih]
      · next hn =>
          obtain ⟨d, rest, rfl⟩ := List.exists_cons_of_ne_nil hp.2
          rw [withEndings_cons, if_pos rfl, List.cons_append, List.dropWhile_cons,
            hp.1 d (List.mem_cons_self ..), if_neg hn]
    · rw [if_neg hc, List.singleton_append, List.dropWhile_cons, ih]
      split
      · rfl
      · simp [withEndings_cons, hc]

/-- What was written so far, with another terminator in place of the line feeds. -/
def Emission.withEndings (ending : LineEnding) (e : Emission) : Emission :=
  { e with out := Layout.withEndings ending.terminator.toList.reverse e.out }

theorem writeText_withEndings (ending : LineEnding) (text out : List Char) :
    writeText ending.terminator.toList text (withEndings ending.terminator.toList.reverse out)
      = withEndings ending.terminator.toList.reverse (writeText ['\n'] text out) := by
  unfold writeText
  induction text generalizing out with
  | nil => rfl
  | cons c text ih =>
    rw [List.foldl_cons, List.foldl_cons, ← ih]
    by_cases hc : c = '\n'
    · simp [hc, withEndings_cons]
    · simp [hc, withEndings_cons]

/-- A test that does not tell the line feed from a carriage return holds on all of a terminator or
on nothing of it. -/
theorem eq_of_mem_reverse_terminator {f : Char → Bool} (hf : f '\r' = f '\n')
    (ending : LineEnding) : (∀ c ∈ ending.terminator.toList.reverse, f c = f '\n')
      ∧ ending.terminator.toList.reverse ≠ [] := by
  refine ⟨fun c hc => ?_, List.reverse_ne_nil_iff.mpr (terminator_ne_nil ending)⟩
  rcases eq_of_mem_terminator (List.mem_reverse.mp hc) with rfl | rfl
  · exact hf
  · rfl

theorem endLine_withEndings (ending : LineEnding) (out : List Char) :
    endLine ending.terminator.toList (withEndings ending.terminator.toList.reverse out)
      = withEndings ending.terminator.toList.reverse (endLine ['\n'] out) := by
  rw [endLine, dropWhile_withEndings (eq_of_mem_reverse_terminator (by decide) ending)]
  simp [endLine, withEndings_cons]

theorem writeGap_withEndings (ending : LineEnding) (gap : Gap) (depth : Nat) (out : List Char) :
    writeGap ending.terminator.toList gap depth
        (withEndings ending.terminator.toList.reverse out)
      = withEndings ending.terminator.toList.reverse (writeGap ['\n'] gap depth out) := by
  have htabs : withEndings ending.terminator.toList.reverse (List.replicate depth '\t')
      = List.replicate depth '\t' :=
    withEndings_eq_self fun h => absurd (List.eq_of_mem_replicate h) (by decide)
  cases gap with
  | glue => rfl
  | space => simp [writeGap, withEndings_cons]
  | newline => simp [writeGap, htabs, endLine_withEndings]
  | blank => simp [writeGap, htabs, endLine_withEndings, withEndings_cons]

theorem push_withEndings (source : String) (ending : LineEnding) (e : Emission) (t : Token) :
    (e.withEndings ending).push source ending.terminator.toList t
      = (e.push source ['\n'] t).withEndings ending := by
  unfold Emission.push Emission.withEndings Emission.gapBefore
  cases e.last with
  | none => simp only [writeText_withEndings]
  | some prev => simp only [writeGap_withEndings, writeText_withEndings]

theorem foldl_push_withEndings (source : String) (ending : LineEnding) (ts : List Token)
    (e : Emission) :
    ts.foldl (Emission.push source ending.terminator.toList) (e.withEndings ending)
      = (ts.foldl (Emission.push source ['\n']) e).withEndings ending := by
  induction ts generalizing e with
  | nil => rfl
  | cons t ts ih => rw [List.foldl_cons, List.foldl_cons, push_withEndings, ih]

/-- An emission with any terminator is the one with line feeds, each replaced. -/
theorem emit_eq_withEndings (source : String) (ending : LineEnding) (ts : List Token) :
    (emit source ending ts).toList
      = withEndings ending.terminator.toList (emit source .lf ts).toList := by
  have hp := eq_of_mem_reverse_terminator (f := isLayoutChar) (by decide) ending
  have hrun : ts.foldl (Emission.push source ending.terminator.toList) {}
      = (ts.foldl (Emission.push source ['\n']) {}).withEndings ending :=
    foldl_push_withEndings source ending ts {}
  have hlf : withEndings ending.terminator.toList ['\n'] = ending.terminator.toList := by
    simp [withEndings]
  simp only [emit, String.toList_ofList, withEndings_append, toList_lf, hlf]
  rw [hrun, Emission.withEndings, dropWhile_withEndings hp, reverse_withEndings,
    List.reverse_reverse]

/-! ## Reading an output back -/

theorem lineFeeds_cons (h : c = '\r' → cs.head? ≠ some '\n') :
    Text.lineFeeds (c :: cs) = (if c = '\r' then '\n' else c) :: Text.lineFeeds cs := by
  rw [Text.lineFeeds.eq_3]
  rintro rest rfl rfl
  exact h rfl rfl

theorem head?_withEndings_cr (cs : List Char) : (withEndings ['\r'] cs).head? ≠ some '\n' := by
  cases cs with
  | nil => simp
  | cons c cs =>
    rw [withEndings_cons]
    by_cases hc : c = '\n' <;> simp [hc]

theorem lineFeeds_withEndings (ending : LineEnding) (h : '\r' ∉ cs) :
    Text.lineFeeds (withEndings ending.terminator.toList cs) = cs := by
  induction cs with
  | nil => rfl
  | cons c cs ih =>
    rw [List.mem_cons, not_or] at h
    have hr : c ≠ '\r' := fun hc => h.1 hc.symm
    rw [withEndings_cons]
    by_cases hc : c = '\n'
    · subst hc
      have ih := ih h.2
      rw [if_pos rfl]
      cases ending with
      | lf =>
        rw [toList_lf] at ih ⊢
        rw [List.singleton_append, lineFeeds_cons fun h => absurd h hr, if_neg hr, ih]
      | cr =>
        rw [toList_cr] at ih ⊢
        rw [List.singleton_append, lineFeeds_cons fun _ => head?_withEndings_cr cs,
          if_pos rfl, ih]
      | crlf =>
        rw [toList_crlf] at ih ⊢
        rw [List.cons_append, List.singleton_append, Text.lineFeeds, ih]
    · rw [if_neg hc, List.singleton_append, lineFeeds_cons fun h => absurd h hr, if_neg hr, ih h.2]

theorem cr_not_mem_writeText {text : List Char} (ht : '\r' ∉ text) (ho : '\r' ∉ out) :
    '\r' ∉ writeText ['\n'] text out := by
  unfold writeText
  induction text generalizing out with
  | nil => exact ho
  | cons c text ih =>
    rw [List.mem_cons, not_or] at ht
    refine ih ht.2 ?_
    by_cases hc : c = '\n'
    · simp [hc, ho]
    · simp [hc, ho, ht.1]

theorem cr_not_mem_writeGap (gap : Gap) (depth : Nat) (ho : '\r' ∉ out) :
    '\r' ∉ writeGap ['\n'] gap depth out := by
  have hdrop : '\r' ∉ out.dropWhile isLineBlank :=
    fun h => ho ((List.dropWhile_suffix _).subset h)
  have htabs : '\r' ∉ List.replicate depth '\t' :=
    fun h => absurd (List.eq_of_mem_replicate h) (by decide)
  cases gap <;> simp [writeGap, endLine, ho, hdrop, htabs]

theorem cr_not_mem_foldl_push (source : String) (hts : ∀ t ∈ ts, '\r' ∉ t.text.toList)
    {e : Emission} (ho : '\r' ∉ e.out) : '\r' ∉ (ts.foldl (Emission.push source ['\n']) e).out := by
  induction ts generalizing e with
  | nil => exact ho
  | cons t ts ih =>
    refine ih (fun s hs => hts s (List.mem_cons_of_mem _ hs)) ?_
    have ht := hts t (List.mem_cons_self ..)
    unfold Emission.push
    cases e.last with
    | none => exact cr_not_mem_writeText ht ho
    | some prev => exact cr_not_mem_writeText ht (cr_not_mem_writeGap _ _ ho)

theorem cr_not_mem_emit_lf (source : String) (hts : ∀ t ∈ ts, '\r' ∉ t.text.toList) :
    '\r' ∉ (emit source .lf ts).toList := by
  have hrun := cr_not_mem_foldl_push source hts (e := {}) (by simp)
  have hdrop : '\r' ∉ (ts.foldl (Emission.push source ['\n']) {}).out.dropWhile isLayoutChar :=
    fun h => hrun ((List.dropWhile_suffix _).subset h)
  simp only [emit, String.toList_ofList, List.mem_append, List.mem_reverse, not_or]
  exact ⟨hdrop, by decide⟩

/-- Whatever the terminator was, reading the output gives the one with line feeds. -/
theorem normalizeLines_emit (source : String) (ending : LineEnding)
    (hts : ∀ t ∈ ts, '\r' ∉ t.text.toList) :
    Text.normalizeLines (emit source ending ts) = emit source .lf ts := by
  rw [Text.normalizeLines, emit_eq_withEndings,
    lineFeeds_withEndings ending (cr_not_mem_emit_lf source hts), String.ofList_toList]

end Legible.Layout
