import Legible.Proofs.Layout.Emission
import Mathlib.Data.List.DropRight

/-!
# The shape of an output

An output with line feeds is the texts of its tokens with the gaps between them, each gap written as
it is named: nothing, one space, or one or two line feeds and the indentation. Only at the end of a
line does a gap reach back into the text before it, for the blanks there, and only the last text
loses what layout stands at its end.

`gaps` reads the choice of every gap off the tokens and their source, apart from any writing, and
`emit_lf_cons` says that the output is `assembled` from these two.
-/

namespace Legible

namespace Gap

def lineFeeds : Gap → Nat
  | .glue => 0
  | .space => 0
  | .newline => 1
  | .blank => 2

/-- What a gap writes before a token that is indented by `depth`. -/
def chars (depth : Nat) : Gap → List Char
  | .glue => []
  | .space => [' ']
  | .newline => '\n' :: List.replicate depth '\t'
  | .blank => '\n' :: '\n' :: List.replicate depth '\t'

theorem count_chars (g : Gap) (depth : Nat) : (g.chars depth).count '\n' = g.lineFeeds := by
  have htabs : (List.replicate depth '\t').count '\n' = 0 := by simp [List.count_replicate]
  cases g <;> simp [chars, lineFeeds, htabs]

theorem chars_layout (g : Gap) (depth : Nat) :
    ∀ c ∈ g.chars depth, Layout.isLayoutChar c = true := by
  have htabs : ∀ c ∈ List.replicate depth '\t', Layout.isLayoutChar c = true := fun c hc => by
    rw [List.eq_of_mem_replicate hc]; decide
  intro c hc
  cases g with
  | glue => cases hc
  | space => rw [List.mem_singleton.mp hc]; decide
  | newline =>
    rcases List.mem_cons.mp hc with rfl | hc
    · decide
    · exact htabs c hc
  | blank =>
    rcases List.mem_cons.mp hc with rfl | hc
    · decide
    · rcases List.mem_cons.mp hc with rfl | hc
      · decide
      · exact htabs c hc

end Gap

/-- A token is shown at all: its text starts with a character that is not layout. -/
def Token.startsVisible (t : Token) : Bool :=
  t.text.toList.head?.any fun c => !Layout.isLayoutChar c

namespace Layout

variable {t : Token} {c : Char} {ts : List Token}

/-! ## The gaps of a token list -/

/-- The gap between two neighbours with `breaks` line breaks between them in the source; `code` is
the last token up to `prev` that is no comment, and `gap` the gap before `prev`. -/
def gapAt (breaks : Nat) (code : Option Token) (gap : Gap) (prev next : Token) : Gap :=
  if next.isComment then gapBeforeComment breaks prev next
  else if prev.isComment then gapAfterComment breaks code gap prev next
  else if gapBetween prev next == .newline then lineGap breaks prev next
  else gapBetween prev next

/-- The last token that is no comment, after one more token. -/
def codeAfter (code : Option Token) (t : Token) : Option Token :=
  if t.isComment then code else some t

def gapsFrom (source : String) (prev : Token) (code : Option Token) (gap : Gap) :
    List Token → List Gap
  | [] => []
  | t :: ts =>
    let g := gapAt (lineBreaks source prev t) code gap prev t
    g :: gapsFrom source t (codeAfter code t) g ts

def gaps (source : String) : List Token → List Gap
  | [] => []
  | t :: ts => gapsFrom source t (codeAfter none t) .newline ts

/-! ## Texts and gaps put together -/

/-- A text before a gap: where the line ends, the blanks at its end go. -/
def settled (g : Gap) (text : List Char) : List Char :=
  if 0 < g.lineFeeds then text.rdropWhile isLineBlank else text

/-- The text of `t` and of the tokens after it, each with the gap before it. -/
def assembled (t : Token) : List (Gap × Token) → List Char
  | [] => t.text.toList.rdropWhile isLayoutChar
  | (g, next) :: rest =>
    settled g t.text.toList ++ (g.chars next.depth ++ assembled next rest)

/-! ## Emission assembles -/

theorem exists_cons_of_startsVisible (h : t.startsVisible = true) :
    ∃ c cs, t.text.toList = c :: cs ∧ isLayoutChar c = false := by
  unfold Token.startsVisible at h
  cases htext : t.text.toList with
  | nil => simp [htext] at h
  | cons c cs => exact ⟨c, cs, rfl, by simpa [htext] using h⟩

theorem isLineBlank_eq_false (h : isLayoutChar c = false) : isLineBlank c = false := by
  cases hb : isLineBlank c with
  | false => rfl
  | true => rw [isLayoutChar_of_isLineBlank hb] at h; cases h

/-- Taking characters off an output stays within the last text, as that starts with one that is
kept. -/
theorem dropWhile_text_append {p : Char → Bool} (hc : p c = false) (cs out : List Char) :
    ((c :: cs).reverse ++ out).dropWhile p = ((c :: cs).rdropWhile p).reverse ++ out := by
  rw [List.rdropWhile, List.reverse_reverse, List.dropWhile_append, if_neg]
  rw [List.isEmpty_iff, List.dropWhile_eq_nil_iff]
  intro h
  have := h c (by simp)
  rw [hc] at this
  cases this

theorem writeText_lf (text out : List Char) : writeText ['\n'] text out = text.reverse ++ out := by
  unfold writeText
  induction text generalizing out with
  | nil => rfl
  | cons c text ih =>
    rw [List.foldl_cons, ih]
    by_cases hc : c = '\n' <;> simp [hc]

theorem writeGap_lf (ht : t.startsVisible = true) (g : Gap) (depth : Nat) (out : List Char) :
    writeGap ['\n'] g depth (t.text.toList.reverse ++ out)
      = (g.chars depth).reverse ++ ((settled g t.text.toList).reverse ++ out) := by
  obtain ⟨c, cs, htext, hc⟩ := exists_cons_of_startsVisible ht
  have hdrop := dropWhile_text_append (isLineBlank_eq_false hc) cs out
  rw [htext]
  cases g <;> simp [writeGap, endLine, Gap.chars, settled, Gap.lineFeeds] <;> simpa using hdrop

/-- The emission after the token `prev`, whose text is the last thing written. -/
theorem foldl_push_assembled (source : String) {prev : Token} (hprev : prev.startsVisible = true)
    (hts : ∀ t ∈ ts, t.startsVisible = true) {e : Emission} {out : List Char}
    (hlast : e.last = some prev) (hout : e.out = prev.text.toList.reverse ++ out) :
    (ts.foldl (Emission.push source ['\n']) e).out.dropWhile isLayoutChar
      = (assembled prev ((gapsFrom source prev e.code e.gap ts).zip ts)).reverse ++ out := by
  induction ts generalizing prev e out with
  | nil =>
    obtain ⟨c, cs, htext, hc⟩ := exists_cons_of_startsVisible hprev
    rw [List.foldl_nil, hout, gapsFrom, List.zip_nil_right, assembled, htext]
    exact dropWhile_text_append hc cs out
  | cons t ts ih =>
    have ht := hts t (List.mem_cons_self ..)
    have hgap : e.gapBefore source prev t
        = gapAt (lineBreaks source prev t) e.code e.gap prev t := rfl
    have hpush : e.push source ['\n'] t =
        { out := t.text.toList.reverse
            ++ ((e.gapBefore source prev t).chars t.depth).reverse
            ++ ((settled (e.gapBefore source prev t) prev.text.toList).reverse ++ out)
          last := some t, code := codeAfter e.code t, gap := e.gapBefore source prev t } := by
      simp only [Emission.push, hlast, hout, writeText_lf, writeGap_lf hprev, codeAfter,
        List.append_assoc]
    rw [List.foldl_cons, hpush, ih ht (fun s hs => hts s (List.mem_cons_of_mem _ hs)) rfl
      (List.append_assoc ..)]
    simp [gapsFrom, assembled, hgap]

/-- The output with line feeds: the assembled text and one line feed. -/
theorem emit_lf_cons (source : String) (hts : ∀ s ∈ t :: ts, s.startsVisible = true) :
    (emit source .lf (t :: ts)).toList
      = assembled t ((gaps source (t :: ts)).zip ts) ++ ['\n'] := by
  have hpush : ({} : Emission).push source ['\n'] t =
      { out := t.text.toList.reverse ++ [], last := some t, code := codeAfter none t } := by
    simp [Emission.push, writeText_lf, codeAfter]
  have hrun := foldl_push_assembled source (hts t (List.mem_cons_self ..))
    (fun s hs => hts s (List.mem_cons_of_mem _ hs)) (e := ({} : Emission).push source ['\n'] t)
    (by rw [hpush]) (by rw [hpush])
  simp only [emit, toList_lf, String.toList_ofList, List.foldl_cons, hrun]
  simp [hpush, gaps]

end Layout

end Legible
