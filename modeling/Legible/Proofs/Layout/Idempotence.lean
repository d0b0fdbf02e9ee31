import Legible.Proofs.Layout.Shape
import Legible.Proofs.Text.Slice
import Mathlib.Data.List.Forall2

/-!
# Layout is idempotent

A layout is read back as the same tokens at new places (`Relaid`, `Sits`), and laying these out
changes nothing. There are two obligations:

- **the places** (`Sits.next`): between two tokens of an output stands the gap that was chosen
  for them and nothing else, so the source of the second run has as many line breaks there as the
  gap writes (`lineBreaks_eq_lineFeeds`);
- **the choice** (`gapAt_lineFeeds`): a gap that is chosen again with its own line breaks in the
  source is the same gap.

The line endings play no part: `emit_eq_withEndings` leaves only line feeds to look at.
-/

namespace Legible

namespace Token

/-- The text as it is read back: a line comment has lost the blanks at its end. -/
def shownText (t : Token) : String :=
  if t.kind == "line_comment" then
    String.ofList (t.text.toList.rdropWhile Layout.isLineBlank)
  else t.text

/-- What the layout asks of a text: it is shown, has no carriage return, and ends in no blank
unless it is a line comment. -/
def regular (t : Token) : Bool :=
  t.startsVisible && !t.text.toList.contains '\r'
    && (t.kind == "line_comment" || !t.text.toList.getLast?.any Layout.isLineBlank)

/-- The second token is the first one read back, its place and its numbers aside. -/
structure Alike (t t' : Token) : Prop where
  kind : t'.kind = t.kind
  parentKind : t'.parentKind? = t.parentKind?
  grandparentKind : t'.grandparent.map (·.kind) = t.grandparent.map (·.kind)
  leads : t'.leads = t.leads
  depth : t'.depth = t.depth
  annotationEnd : t'.annotationEnd = t.annotationEnd
  text : t'.text = t.shownText

instance (t t' : Token) : Decidable (t.Alike t') :=
  decidable_of_iff
    (t'.kind = t.kind ∧ t'.parentKind? = t.parentKind?
      ∧ t'.grandparent.map (·.kind) = t.grandparent.map (·.kind) ∧ t'.leads = t.leads
      ∧ t'.depth = t.depth ∧ t'.annotationEnd = t.annotationEnd ∧ t'.text = t.shownText)
    ⟨fun ⟨h₁, h₂, h₃, h₄, h₅, h₆, h₇⟩ => ⟨h₁, h₂, h₃, h₄, h₅, h₆, h₇⟩,
      fun h => ⟨h.kind, h.parentKind, h.grandparentKind, h.leads, h.depth, h.annotationEnd, h.text⟩⟩

/-- The number of the node above, which tells the tokens of one body from those of another. -/
def parentNumber? (t : Token) : Option Nat := t.parent.map (·.number)

section Alike

variable {t t' : Token} (h : t.Alike t')

include h

theorem Alike.isComment_eq : t'.isComment = t.isComment := by
  simp only [isComment, h.kind]

theorem Alike.isUnder_eq (kind : String) : t'.isUnder kind = t.isUnder kind := by
  simp only [isUnder, h.parentKind]

theorem Alike.grandparent_any (kind : String) :
    (t'.grandparent.any fun l => l.kind == kind) = t.grandparent.any fun l => l.kind == kind := by
  have hkinds := congrArg (Option.any (· == kind)) h.grandparentKind
  simpa only [Option.any_map, Function.comp_def] using hkinds

theorem Alike.opensBody_eq : t'.opensBody = t.opensBody := by
  simp only [opensBody, isBodyBrace, h.kind, h.parentKind]

theorem Alike.closesBody_eq : t'.closesBody = t.closesBody := by
  simp only [closesBody, isBodyBrace, h.kind, h.parentKind]

theorem Alike.isInitializerBrace_eq (brace : String) :
    t'.isInitializerBrace brace = t.isInitializerBrace brace := by
  simp only [isInitializerBrace, h.kind, h.isUnder_eq]

theorem Alike.isAngle_eq : t'.isAngle = t.isAngle := by
  simp only [isAngle, h.kind, h.isUnder_eq]

theorem Alike.isPrefixOperator_eq : t'.isPrefixOperator = t.isPrefixOperator := by
  simp only [isPrefixOperator, isStep, h.leads, h.kind, h.isUnder_eq]

theorem Alike.isPostfixOperator_eq : t'.isPostfixOperator = t.isPostfixOperator := by
  simp only [isPostfixOperator, isStep, h.leads, h.kind, h.isUnder_eq]

theorem Alike.isCallee_eq : t'.isCallee = t.isCallee := by
  simp only [isCallee, h.kind, h.isAngle_eq]

theorem Alike.isInlineSemicolon_eq : t'.isInlineSemicolon = t.isInlineSemicolon := by
  simp only [isInlineSemicolon, h.isUnder_eq, h.grandparent_any]

end Alike

end Token

namespace Layout

variable {t t' prev : Token} {c : Char} {gap rest left : List Char} {ts ts' : List Token} {g : Gap}
  {offset : Nat} {source : String}

/-- The second list is the first one read back: the tokens are alike, and two of them have one
parent when they had one before. -/
structure Relaid (ts ts' : List Token) : Prop where
  length : ts.length = ts'.length
  alike : ∀ z ∈ ts.zip ts', z.1.Alike z.2
  siblings : ∀ y ∈ ts.zip ts', ∀ z ∈ ts.zip ts',
    (y.2.parentNumber? = z.2.parentNumber? ↔ y.1.parentNumber? = z.1.parentNumber?)

/-- The tokens sit in a text that starts at the byte `offset`: layout, a token, layout, and so on.
Of the last token the layout at its end may be lost. -/
inductive Sits : Nat → List Token → List Char → Prop
  | nil {offset : Nat} {gap : List Char} (hgap : ∀ c ∈ gap, isLayoutChar c = true) :
      Sits offset [] gap
  | last {offset : Nat} {t : Token} {gap rest : List Char}
      (hgap : ∀ c ∈ gap, isLayoutChar c = true) (hrest : ∀ c ∈ rest, isLayoutChar c = true)
      (hstart : t.label.span.start = offset + String.utf8Len gap) :
      Sits offset [t] (gap ++ (t.text.toList.rdropWhile isLayoutChar ++ rest))
  | cons {offset : Nat} {t next : Token} {ts : List Token} {gap rest : List Char}
      (hgap : ∀ c ∈ gap, isLayoutChar c = true)
      (hstart : t.label.span.start = offset + String.utf8Len gap)
      (hstop : t.label.span.stop = t.label.span.start + String.utf8Len t.text.toList)
      (hnext : Sits t.label.span.stop (next :: ts) rest) :
      Sits offset (t :: next :: ts) (gap ++ (t.text.toList ++ rest))

/-! ## The same choice twice -/

structure Corresponds (R : Token → Token → Prop) : Prop where
  alike : ∀ {t t' : Token}, R t t' → t.Alike t'
  siblings : ∀ {s s' t t' : Token}, R s s' → R t t' →
    (s'.parentNumber? = t'.parentNumber? ↔ s.parentNumber? = t.parentNumber?)

theorem gapBetween_ne_blank (prev next : Token) : gapBetween prev next ≠ .blank := by
  unfold gapBetween stronger
  grind

section Alike

variable {prev' next next' : Token} (hprev : prev.Alike prev') (hnext : next.Alike next')

include hprev hnext

theorem after_alike : after prev' next' = after prev next := by
  unfold after afterBody
  rw [hprev.kind, hprev.opensBody_eq, hprev.closesBody_eq, hprev.isInitializerBrace_eq,
    hprev.isInlineSemicolon_eq, hprev.isUnder_eq, hprev.isAngle_eq, hprev.grandparent_any,
    hprev.isPrefixOperator_eq, hprev.annotationEnd, hnext.kind, hnext.isUnder_eq]

theorem before_alike : before prev' next' = before prev next := by
  unfold before
  rw [hnext.kind, hnext.closesBody_eq, hnext.isInitializerBrace_eq, hnext.isAngle_eq,
    hnext.isUnder_eq, hnext.isUnder_eq, hnext.isPostfixOperator_eq, hprev.isCallee_eq]

theorem allowsBlank_alike : allowsBlank prev' next' = allowsBlank prev next := by
  simp only [allowsBlank, hprev.opensBody_eq, hnext.closesBody_eq]

end Alike

/-! ### Texts that are read back -/

theorem startsVisible_of_regular (h : t.regular = true) : t.startsVisible = true := by
  simp only [Token.regular, Bool.and_eq_true] at h
  exact h.1.1

theorem rdropWhile_cons_of_eq_false {p : Char → Bool} (hc : p c = false) (cs : List Char) :
    ∃ ds, (c :: cs).rdropWhile p = c :: ds := by
  obtain ⟨rest, hrest⟩ := List.rdropWhile_prefix p (c :: cs)
  cases hdrop : (c :: cs).rdropWhile p with
  | nil =>
    have := List.rdropWhile_eq_nil_iff.mp hdrop c (List.mem_cons_self ..)
    rw [hc] at this
    cases this
  | cons d ds =>
    rw [hdrop, List.cons_append, List.cons.injEq] at hrest
    exact ⟨ds, by rw [hrest.1]⟩

theorem shownText_eq_text (h : t.kind ≠ "line_comment") : t.shownText = t.text := by
  simp [Token.shownText, h]

/-- The text read back is the text without the blanks at its end, which only line comments have. -/
theorem toList_shownText (h : t.regular = true) :
    t.shownText.toList = t.text.toList.rdropWhile isLineBlank := by
  by_cases hkind : t.kind = "line_comment"
  · simp [Token.shownText, hkind]
  · rw [shownText_eq_text hkind, List.rdropWhile_eq_self_iff.mpr]
    intro hne
    simp only [Token.regular, Bool.and_eq_true, Bool.or_eq_true, Bool.not_eq_true',
      beq_iff_eq] at h
    have hlast := h.2.resolve_left hkind
    rw [List.getLast?_eq_some_getLast hne] at hlast
    simpa using hlast

theorem head?_shownText (h : t.startsVisible = true) :
    t.shownText.toList.head? = t.text.toList.head? := by
  obtain ⟨c, cs, htext, hc⟩ := exists_cons_of_startsVisible h
  obtain ⟨ds, hds⟩ := rdropWhile_cons_of_eq_false (isLineBlank_eq_false hc) cs
  unfold Token.shownText
  split
  · rw [String.toList_ofList, htext, hds, List.head?_cons, List.head?_cons]
  · rfl

/-! ### The gap is chosen again -/

section Choice

variable {R : Token → Token → Prop} {prev' next next' : Token} {code code' : Option Token}

theorem kind_ne_lineComment (h : ¬ t.isComment = true) : t.kind ≠ "line_comment" := by
  intro hkind
  simp [Token.isComment, hkind] at h

theorem gapBetween_alike (hR : Corresponds R) (hprev : R prev prev') (hnext : R next next')
    (hkind : prev.kind ≠ "line_comment") (hvisible : next.startsVisible = true) :
    gapBetween prev' next' = gapBetween prev next := by
  have hp := hR.alike hprev
  have hn := hR.alike hnext
  have hempty : isEmptyBody prev' next' = isEmptyBody prev next := by
    have hsame := hR.siblings hprev hnext
    unfold Token.parentNumber? at hsame
    rw [isEmptyBody, isEmptyBody, hp.opensBody_eq, hn.closesBody_eq, Bool.beq_eq_decide_eq,
      Bool.beq_eq_decide_eq, decide_eq_decide.mpr hsame]
  have hfuse : wouldFuse prev'.text next'.text = wouldFuse prev.text next.text := by
    rw [wouldFuse, wouldFuse, hp.text, hn.text, shownText_eq_text hkind, head?_shownText hvisible]
  rw [gapBetween, gapBetween, hempty, after_alike hp hn, before_alike hp hn, hp.isAngle_eq,
    hn.isAngle_eq, hfuse]

theorem lineGap_alike (hprev : prev.Alike prev') (hnext : next.Alike next') (breaks : Nat) :
    lineGap breaks prev' next' = lineGap breaks prev next := by
  rw [lineGap, lineGap, allowsBlank_alike hprev hnext]

theorem lineFeeds_lineGap_pos (breaks : Nat) (prev next : Token) :
    0 < (lineGap breaks prev next).lineFeeds := by
  unfold lineGap
  split <;> decide

theorem lineGap_lineFeeds (breaks : Nat) (prev next : Token) :
    lineGap (lineGap breaks prev next).lineFeeds prev next = lineGap breaks prev next := by
  unfold lineGap
  cases h : (decide (2 ≤ breaks) && allowsBlank prev next) with
  | false => simp [Gap.lineFeeds]
  | true =>
    rw [Bool.and_eq_true] at h
    simp [Gap.lineFeeds, h.2]

/-- A gap between the tokens of one line, and a new line, are chosen again where the line breaks of
the source do not force the end of a line. -/
theorem lineFeeds_of_ne_blank (h : g ≠ .blank) (prev next : Token) :
    g.lineFeeds = 0 ∨ lineGap g.lineFeeds prev next = g := by
  cases g <;> simp_all [Gap.lineFeeds, lineGap]

theorem gapBeforeComment_lineFeeds (hR : Corresponds R) (hprev : R prev prev')
    (hnext : R next next') (hvisible : next.startsVisible = true) (breaks : Nat) :
    gapBeforeComment (gapBeforeComment breaks prev next).lineFeeds prev' next'
      = gapBeforeComment breaks prev next := by
  have hp := hR.alike hprev
  have hn := hR.alike hnext
  by_cases hbreaks : breaks = 0
  · by_cases hcomment : prev.isComment = true
    · simp [gapBeforeComment, hbreaks, hcomment, hp.isComment_eq, Gap.lineFeeds]
    · have hgap := gapBetween_alike hR hprev hnext (kind_ne_lineComment hcomment) hvisible
      cases hglue : gapBetween prev next == .glue <;>
        simp [gapBeforeComment, hbreaks, hcomment, hp.isComment_eq, hgap, hglue, Gap.lineFeeds]
  · have hpos := lineFeeds_lineGap_pos breaks prev next
    simp only [gapBeforeComment, hbreaks, if_false, if_neg (Nat.pos_iff_ne_zero.mp hpos),
      lineGap_alike hp hn, lineGap_lineFeeds]

/-- The gap after a comment within a line, from the code before the comment. -/
def gapAround (code : Option Token) (gap : Gap) (next : Token) : Gap :=
  match code with
  | none => .newline
  | some code =>
    if gapBetween code next == .glue && gap == .glue then .space else gapBetween code next

theorem gapAfterComment_eq (breaks : Nat) (code : Option Token) (gap : Gap) (prev next : Token) :
    gapAfterComment breaks code gap prev next
      = if prev.kind == "line_comment" || 0 < breaks then lineGap breaks prev next
        else gapAround code gap next := rfl

theorem gapAround_ne_blank (code : Option Token) (gap : Gap) (next : Token) :
    gapAround code gap next ≠ .blank := by
  cases code with
  | none => exact nofun
  | some code =>
    rw [gapAround]
    split
    · exact nofun
    · exact gapBetween_ne_blank code next

theorem gapAround_alike (hR : Corresponds R) (hnext : R next next')
    (hvisible : next.startsVisible = true) (hcode : Option.Rel R code code')
    (hcodes : ∀ t ∈ code, t.isComment = false) (gap : Gap) :
    gapAround code' gap next' = gapAround code gap next := by
  cases hcode with
  | none => rfl
  | @some code code' hcode =>
    have hline : code.kind ≠ "line_comment" := kind_ne_lineComment (by simp [hcodes code rfl])
    rw [gapAround, gapAround, gapBetween_alike hR hcode hnext hline hvisible]

theorem gapAfterComment_lineFeeds (hR : Corresponds R) (hprev : R prev prev')
    (hnext : R next next') (hvisible : next.startsVisible = true)
    (hcode : Option.Rel R code code') (hcodes : ∀ t ∈ code, t.isComment = false) (breaks : Nat)
    (gap : Gap) :
    gapAfterComment (gapAfterComment breaks code gap prev next).lineFeeds code' gap prev' next'
      = gapAfterComment breaks code gap prev next := by
  have hp := hR.alike hprev
  have hn := hR.alike hnext
  have haround := gapAround_alike hR hnext hvisible hcode hcodes gap
  simp only [gapAfterComment_eq, hp.kind, lineGap_alike hp hn, haround]
  cases hends : (prev.kind == "line_comment" || decide (0 < breaks)) with
  | true =>
    have hpos := lineFeeds_lineGap_pos breaks prev next
    simp [hpos, lineGap_lineFeeds]
  | false =>
    have hkind := (Bool.or_eq_false_iff.mp hends).1
    -- a new line that the code asks for is a line break that the source has the second time
    rcases lineFeeds_of_ne_blank (gapAround_ne_blank code gap next) prev next with hzero | hline
    · simp [hkind, hzero]
    · simp [hkind, hline]

/-- A gap that is chosen again, with its own line feeds as the line breaks of the source, is the
same gap. -/
theorem gapAt_lineFeeds (hR : Corresponds R) (hprev : R prev prev') (hnext : R next next')
    (hvisible : next.startsVisible = true) (hcode : Option.Rel R code code')
    (hcodes : ∀ t ∈ code, t.isComment = false) (breaks : Nat) (gap : Gap) :
    gapAt (gapAt breaks code gap prev next).lineFeeds code' gap prev' next'
      = gapAt breaks code gap prev next := by
  have hp := hR.alike hprev
  have hn := hR.alike hnext
  by_cases hcomment : next.isComment = true
  · simp only [gapAt, hcomment, hn.isComment_eq, if_true]
    exact gapBeforeComment_lineFeeds hR hprev hnext hvisible breaks
  · by_cases hafter : prev.isComment = true
    · simp only [gapAt, hcomment, hn.isComment_eq, hafter, hp.isComment_eq, if_true]
      exact gapAfterComment_lineFeeds hR hprev hnext hvisible hcode hcodes breaks gap
    · have hgap := gapBetween_alike hR hprev hnext (kind_ne_lineComment hafter) hvisible
      simp only [gapAt, hcomment, hn.isComment_eq, hafter, hp.isComment_eq, hgap,
        lineGap_alike hp hn]
      cases hline : gapBetween prev next == .newline <;> simp [lineGap_lineFeeds]

/-- A line ends after a line comment that a line break follows in the source. -/
theorem gapAt_endsLine (hkind : prev.kind = "line_comment") {breaks : Nat} (hbreaks : 0 < breaks)
    (code : Option Token) (gap : Gap) : 0 < (gapAt breaks code gap prev next).lineFeeds := by
  have hpos := lineFeeds_lineGap_pos breaks prev next
  have hcomment : prev.isComment = true := by simp [Token.isComment, hkind]
  unfold gapAt gapBeforeComment gapAfterComment
  simp only [hcomment, hkind, Nat.pos_iff_ne_zero.mp hbreaks, if_true, if_false, beq_self_eq_true,
    Bool.true_or, ite_self]
  exact hpos

end Choice

/-! ## The places of the second run -/

/-- Layout at the start of a text reaches exactly to its first visible character. -/
theorem layout_append_inj {gap' cs ds : List Char} {d : Char}
    (hgap : ∀ a ∈ gap, isLayoutChar a = true) (hgap' : ∀ a ∈ gap', isLayoutChar a = true)
    (hc : isLayoutChar c = false) (hd : isLayoutChar d = false)
    (h : gap ++ c :: cs = gap' ++ d :: ds) : gap = gap' ∧ c :: cs = d :: ds := by
  have htake : ∀ {g : List Char} {x : Char} (xs : List Char), (∀ a ∈ g, isLayoutChar a = true) →
      isLayoutChar x = false → (g ++ x :: xs).takeWhile isLayoutChar = g := by
    intro g x xs hg hx
    rw [List.takeWhile_append_of_pos hg, List.takeWhile_cons_of_neg (by simp [hx]),
      List.append_nil]
  have heq : gap = gap' := by rw [← htake cs hgap hc, h, htake ds hgap' hd]
  exact ⟨heq, List.append_cancel_left (heq ▸ h)⟩

/-- Where the first of several tokens sits, and that the others sit in what follows it. -/
theorem Sits.next {next : Token}
    (h : Sits offset (t :: next :: ts) (gap ++ (t.text.toList ++ rest)))
    (hgap : ∀ c ∈ gap, isLayoutChar c = true) (ht : t.startsVisible = true) :
    t.label.span.start = offset + String.utf8Len gap
      ∧ t.label.span.stop = t.label.span.start + String.utf8Len t.text.toList
      ∧ Sits t.label.span.stop (next :: ts) rest := by
  obtain ⟨c, cs, htext, hc⟩ := exists_cons_of_startsVisible ht
  generalize hall : gap ++ (t.text.toList ++ rest) = all at h
  cases h with
  | @cons _ _ _ _ gap' rest' hgap' hstart hstop hnext =>
    rw [htext, List.cons_append, List.cons_append] at hall
    obtain ⟨rfl, heq⟩ := layout_append_inj hgap hgap' hc hc hall
    have hrest : rest = rest' :=
      List.append_cancel_left (List.cons.inj heq).2
    exact ⟨hstart, hstop, hrest ▸ hnext⟩

/-- Where a token sits that is alone or first. -/
theorem Sits.start (h : Sits offset (t :: ts) (gap ++ c :: rest))
    (hgap : ∀ c ∈ gap, isLayoutChar c = true) (hc : isLayoutChar c = false)
    (ht : t.startsVisible = true) : t.label.span.start = offset + String.utf8Len gap := by
  obtain ⟨d, ds, htext, hd⟩ := exists_cons_of_startsVisible ht
  generalize hall : gap ++ c :: rest = all at h
  cases h with
  | @last _ _ gap' rest' hgap' _ hstart =>
    obtain ⟨es, hes⟩ := rdropWhile_cons_of_eq_false hd ds
    rw [htext, hes, List.cons_append] at hall
    rw [hstart, (layout_append_inj hgap hgap' hc hd hall).1]
  | @cons _ _ _ _ gap' rest' hgap' hstart _ _ =>
    rw [htext, List.cons_append] at hall
    rw [hstart, (layout_append_inj hgap hgap' hc hd hall).1]

theorem assembled_eq_cons (ht : t.startsVisible = true) (zs : List (Gap × Token)) :
    ∃ c cs, assembled t zs = c :: cs ∧ isLayoutChar c = false := by
  obtain ⟨c, cs, htext, hc⟩ := exists_cons_of_startsVisible ht
  cases zs with
  | nil =>
    obtain ⟨ds, hds⟩ := rdropWhile_cons_of_eq_false hc cs
    exact ⟨c, ds, by rw [assembled, htext, hds], hc⟩
  | cons z zs =>
    unfold assembled settled
    split
    · obtain ⟨ds, hds⟩ := rdropWhile_cons_of_eq_false (isLineBlank_eq_false hc) cs
      exact ⟨c, _, by rw [htext, hds, List.cons_append], hc⟩
    · exact ⟨c, _, by rw [htext, List.cons_append], hc⟩

/-! ## The second run -/

theorem startsVisible_alike (h : t.Alike t') (ht : t.startsVisible = true) :
    t'.startsVisible = true := by
  rwa [Token.startsVisible, h.text, head?_shownText ht]

/-- What stands of a text before a gap is the text that is read back. -/
theorem settled_eq_text (h : t.Alike t') (ht : t.regular = true)
    (hg : t.kind = "line_comment" → 0 < g.lineFeeds) :
    settled g t.text.toList = t'.text.toList := by
  unfold settled
  split
  · rw [h.text, toList_shownText ht]
  · next hline => rw [h.text, shownText_eq_text (fun hkind => hline (hg hkind))]

theorem settled_text_eq (h : t.Alike t') (ht : t.regular = true) (g : Gap) :
    settled g t'.text.toList = t'.text.toList := by
  unfold settled
  rw [h.text, toList_shownText ht]
  split
  · rw [List.rdropWhile_idempotent]
  · rfl

theorem dropWhile_isLayoutChar_isLineBlank (cs : List Char) :
    (cs.dropWhile isLineBlank).dropWhile isLayoutChar = cs.dropWhile isLayoutChar := by
  induction cs with
  | nil => rfl
  | cons c cs ih =>
    cases hc : isLineBlank c with
    | false => rw [List.dropWhile_cons_of_neg (by simp [hc])]
    | true =>
      rw [List.dropWhile_cons_of_pos hc, ih,
        List.dropWhile_cons_of_pos (isLayoutChar_of_isLineBlank hc)]

theorem rdropWhile_text_eq (h : t.Alike t') (ht : t.regular = true) :
    t'.text.toList.rdropWhile isLayoutChar = t.text.toList.rdropWhile isLayoutChar := by
  rw [h.text, toList_shownText ht]
  simp only [List.rdropWhile, List.reverse_reverse, dropWhile_isLayoutChar_isLineBlank]

/-- Between two tokens of an output the source of the second run has the line breaks of their
gap. -/
theorem lineBreaks_eq_lineFeeds {next : Token} {depth : Nat}
    (hsource : source.toList = left ++ (g.chars depth ++ rest))
    (hstop : prev.label.span.stop = String.utf8Len left)
    (hstart : next.label.span.start = prev.label.span.stop + String.utf8Len (g.chars depth)) :
    lineBreaks source prev next = g.lineFeeds := by
  rw [lineBreaks, Text.toList_slice hsource hstop hstart, Gap.count_chars]

section Run

variable {R : Token → Token → Prop} {code code' : Option Token} {prev' : Token}

theorem codeAfter_rel (hR : Corresponds R) (ht : R t t') (hcode : Option.Rel R code code') :
    Option.Rel R (codeAfter code t) (codeAfter code' t') := by
  rw [codeAfter, codeAfter, (hR.alike ht).isComment_eq]
  split
  · exact hcode
  · exact .some ht

theorem isComment_codeAfter (hcode : ∀ s ∈ code, s.isComment = false) :
    ∀ s ∈ codeAfter code t, s.isComment = false := by
  unfold codeAfter
  split
  · exact hcode
  · rintro s ⟨rfl⟩
    simp_all

theorem startsVisible_relaid (hR : Corresponds R) (hts : List.Forall₂ R ts ts')
    (hvisible : ∀ t ∈ ts, t.startsVisible = true) : ∀ t' ∈ ts', t'.startsVisible = true := by
  induction hts with
  | nil => simp
  | cons ht _ ih =>
    rw [List.forall_mem_cons] at hvisible ⊢
    exact ⟨startsVisible_alike (hR.alike ht) hvisible.1, ih hvisible.2⟩

variable (hR : Corresponds R) (hprev : R prev prev') (hts : List.Forall₂ R ts ts')
  (hregular : ∀ t ∈ prev :: ts, t.regular = true)

include hR hprev hts hregular

/-- Every gap is chosen again. The induction is on the tokens; what was written before them is
`left`, and `blanks` is the gap before `prev`. -/
theorem gapsFrom_relaid {again : String} (hends : (prev :: ts).IsChain fun s t =>
      s.kind = "line_comment" → 0 < lineBreaks source s t) (hcode : Option.Rel R code code')
    (hcodes : ∀ t ∈ code, t.isComment = false) {gap : Gap} {blanks : List Char}
    (hblanks : ∀ c ∈ blanks, isLayoutChar c = true) (hagain : again.toList = left
      ++ (blanks ++ (assembled prev ((gapsFrom source prev code gap ts).zip ts) ++ ['\n'])))
    (hsits : Sits (String.utf8Len left) (prev' :: ts')
      (blanks ++ (assembled prev ((gapsFrom source prev code gap ts).zip ts) ++ ['\n']))) :
    gapsFrom again prev' code' gap ts' = gapsFrom source prev code gap ts := by
  induction hts generalizing prev prev' code code' gap left blanks with
  | nil => rfl
  | @cons t t' ts ts' ht hts ih =>
    have hp := hR.alike hprev
    have hregular' := fun s hs => hregular s (List.mem_cons_of_mem _ hs)
    have hvisible := startsVisible_of_regular (hregular' t (List.mem_cons_self ..))
    rw [List.isChain_cons_cons] at hends
    simp only [gapsFrom, List.zip_cons_cons, assembled, List.append_assoc] at hagain hsits ⊢
    generalize hg : gapAt (lineBreaks source prev t) code gap prev t = g at hagain hsits ⊢
    generalize hrest : assembled t
      ((gapsFrom source t (codeAfter code t) g ts).zip ts) ++ ['\n'] = rest at hagain hsits
    have hline : prev.kind = "line_comment" → 0 < g.lineFeeds := fun hkind =>
      hg ▸ gapAt_endsLine hkind (hends.1 hkind) code gap
    rw [settled_eq_text hp (hregular prev (List.mem_cons_self ..)) hline] at hagain hsits
    obtain ⟨hstart, hstop, hnext⟩ := hsits.next hblanks
      (startsVisible_alike hp (startsVisible_of_regular (hregular prev (List.mem_cons_self ..))))
    -- the text that follows the gap starts with the next token
    obtain ⟨c, cs, htext, hc⟩ := assembled_eq_cons hvisible
      ((gapsFrom source t (codeAfter code t) g ts).zip ts)
    have hnext' := hnext
    rw [← hrest, htext, List.cons_append] at hnext'
    have hstart' := hnext'.start (g.chars_layout t.depth) hc
      (startsVisible_alike (hR.alike ht) hvisible)
    have hleft : prev'.label.span.stop
        = String.utf8Len (left ++ (blanks ++ prev'.text.toList)) := by
      rw [hstop, hstart]
      simp only [String.utf8Len_append]
      omega
    have hagain' : again.toList
        = (left ++ (blanks ++ prev'.text.toList)) ++ (g.chars t.depth ++ rest) := by
      simp only [hagain, List.append_assoc]
    have hchoice : gapAt (lineBreaks again prev' t') code' gap prev' t' = g := by
      rw [lineBreaks_eq_lineFeeds hagain' hleft hstart', ← hg]
      exact gapAt_lineFeeds hR hprev ht hvisible hcode hcodes _ gap
    rw [hchoice, List.cons.injEq]
    rw [hleft] at hnext
    rw [← hrest] at hagain' hnext
    exact ⟨rfl, ih ht hregular' hends.2 (codeAfter_rel hR ht hcode)
      (isComment_codeAfter hcodes) (g.chars_layout t.depth) hagain' hnext⟩

/-- The gaps put together with the texts that were read back give the same text. -/
theorem assembled_relaid (hends : (prev :: ts).IsChain fun s t =>
      s.kind = "line_comment" → 0 < lineBreaks source s t) (code : Option Token) (gap : Gap) :
    assembled prev' ((gapsFrom source prev code gap ts).zip ts')
      = assembled prev ((gapsFrom source prev code gap ts).zip ts) := by
  induction hts generalizing prev prev' code gap with
  | nil => exact rdropWhile_text_eq (hR.alike hprev) (hregular prev (List.mem_cons_self ..))
  | @cons t t' ts ts' ht _ ih =>
    have hp := hR.alike hprev
    have hpr := hregular prev (List.mem_cons_self ..)
    rw [List.isChain_cons_cons] at hends
    simp only [gapsFrom, List.zip_cons_cons, assembled]
    rw [settled_text_eq hp hpr, settled_eq_text hp hpr fun hkind =>
        gapAt_endsLine hkind (hends.1 hkind) code gap,
      (hR.alike ht).depth, ih ht (fun s hs => hregular s (List.mem_cons_of_mem _ hs)) hends.2]

end Run

/-- The second run with line feeds. -/
theorem emit_lf_relaid {R : Token → Token → Prop} (hR : Corresponds R) (hts : List.Forall₂ R ts ts')
    (hregular : ∀ t ∈ ts, t.regular = true)
    (hends : ts.IsChain fun s t => s.kind = "line_comment" → 0 < lineBreaks source s t)
    (hsits : Sits 0 ts' (emit source .lf ts).toList) :
    (emit (emit source .lf ts) .lf ts').toList = (emit source .lf ts).toList := by
  cases hts with
  | nil => simp only [emit, List.foldl_nil]
  | @cons t t' ts ts' ht hts =>
    have hvisible : ∀ s ∈ t :: ts, s.startsVisible = true := fun s hs =>
      startsVisible_of_regular (hregular s hs)
    have hout := emit_lf_cons source hvisible
    have hagain : (emit source .lf (t :: ts)).toList
        = [] ++ ([] ++ (assembled t ((gaps source (t :: ts)).zip ts) ++ ['\n'])) := hout
    have hgaps : gaps (emit source .lf (t :: ts)) (t' :: ts') = gaps source (t :: ts) := by
      rw [hagain] at hsits
      exact gapsFrom_relaid hR ht hts hregular hends (codeAfter_rel hR ht .none)
        (isComment_codeAfter (by simp)) (by simp) hagain hsits
    rw [emit_lf_cons _ (startsVisible_relaid hR (hts.cons ht) hvisible), hgaps, hout]
    exact congrArg (· ++ ['\n']) (assembled_relaid hR ht hts hregular hends _ _)

/-- Layout is idempotent: the tokens of an output, read back at the places where they sit in it
and laid out with the same line ending, give the output again. -/
theorem emit_relaid {source : String} {ending : LineEnding} {ts ts' : List Token}
    (hregular : ∀ t ∈ ts, t.regular = true)
    (hends : ts.IsChain fun s t => s.kind = "line_comment" → 0 < lineBreaks source s t)
    (hrelaid : Relaid ts ts')
    (hsits : Sits 0 ts' (Text.normalizeLines (emit source ending ts)).toList) :
    emit (Text.normalizeLines (emit source ending ts)) ending ts' = emit source ending ts := by
  have hcr : ∀ t ∈ ts, '\r' ∉ t.text.toList := fun t ht => by
    have := hregular t ht
    simp only [Token.regular, Bool.and_eq_true, Bool.not_eq_true'] at this
    simpa using this.1.2
  have hR : Corresponds fun t t' => (t, t') ∈ ts.zip ts' :=
    ⟨fun h => hrelaid.alike _ h, fun h h' => hrelaid.siblings _ h _ h'⟩
  have hpairs : List.Forall₂ (fun t t' => (t, t') ∈ ts.zip ts') ts ts' :=
    List.forall₂_iff_zip.mpr ⟨hrelaid.length, fun h => h⟩
  rw [normalizeLines_emit source ending hcr] at hsits ⊢
  rw [← String.toList_inj, emit_eq_withEndings, emit_lf_relaid hR hpairs hregular hends hsits,
    ← emit_eq_withEndings]

def topToken (kind text : String) (start stop : Nat) : Token :=
  { label := { number := 0, kind, named := true, missing := false, faulty := false,
               span := ⟨start, stop⟩, role := none }
    text, parent := none, grandparent := none, leads := false, depth := 0
    annotationEnd := false }

/-- A line comment with blanks at its end, empty lines after it, and a block comment that shares a
line with code. -/
theorem emit_relaid_comments :
    let source := "x ; // a  \n\n\n/* b */y"
    let ts := [topToken "identifier" "x" 0 1, topToken ";" ";" 2 3,
      topToken "line_comment" "// a  " 4 10, topToken "block_comment" "/* b */" 13 20,
      topToken "identifier" "y" 20 21]
    let ts' := [topToken "identifier" "x" 0 1, topToken ";" ";" 1 2,
      topToken "line_comment" "// a" 3 7, topToken "block_comment" "/* b */" 9 16,
      topToken "identifier" "y" 17 18]
    emit source .crlf ts = "x; // a\r\n\r\n/* b */\r\ny\r\n"
      ∧ emit (Text.normalizeLines (emit source .crlf ts)) .crlf ts' = emit source .crlf ts := by
  intro source ts ts'
  have hread : (Text.normalizeLines (emit source .crlf ts)).toList
      = [] ++ ("x".toList ++ ([] ++ (";".toList ++ ([' '] ++ ("// a".toList ++ (['\n', '\n']
        ++ ("/* b */".toList ++ (['\n']
        ++ ("y".toList.rdropWhile isLayoutChar ++ ['\n']))))))))) := by
    decide +kernel
  have hsits : Sits 0 ts' (Text.normalizeLines (emit source .crlf ts)).toList := by
    rw [hread]
    have hgap : ∀ {gap : List Char}, gap.all isLayoutChar = true →
        ∀ c ∈ gap, isLayoutChar c = true := List.all_eq_true.mp
    refine .cons (hgap ?_) ?_ ?_ (.cons (hgap ?_) ?_ ?_ (.cons (hgap ?_) ?_ ?_
      (.cons (hgap ?_) ?_ ?_ (.last (hgap ?_) (hgap ?_) ?_)))) <;> decide
  exact ⟨by decide +kernel, emit_relaid (by decide +kernel) (by decide +kernel)
    ⟨rfl, by decide +kernel, by decide +kernel⟩ hsits⟩

end Layout

end Legible
