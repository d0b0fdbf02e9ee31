import Legible.Proofs.Layout.Emission
import Legible.Proofs.Layout.TokenPlaces
import Legible.Proofs.Text.Slice

/-!
# What a layout shows

A unit is tiled when its token places stand one after the other and leave nothing but layout
between them. Then the texts of the token places, layout aside, are the source
(`flatMap_visible_eq`). What a rendering shows is what is written for the token places
(`visible_render`), so nothing is lost and nothing is added but what a name is replaced with.
-/

namespace Legible

open Layout

/-- The token places stand one after the other between characters and cover all but the layout, and
every name spans text. -/
def SourceUnit.tiledOK (u : SourceUnit) : Bool :=
  decide ((tokenPlaces u.root).Pairwise fun p q => p.span.stop ≤ q.span.start)
    && ((tokenPlaces u.root).all fun p =>
      p.span.start ≤ p.span.stop && Text.isBoundary u.source p.span.start
        && Text.isBoundary u.source p.span.stop
        && (!p.node.isName || p.span.start < p.span.stop))
    && (Text.charStarts 0 u.source.toList).all fun (n, c) =>
      isLayoutChar c || (tokenPlaces u.root).any fun p => p.span.start ≤ n && n < p.span.stop

namespace Layout

variable {u : SourceUnit}

/-! ## The tokens cover the source -/

/-- Every visible character of a text that begins at the offset is inside of one of the places. -/
def CoveredBy (ps : List Place) (offset : Nat) (text : List Char) : Prop :=
  ∀ before c after, text = before ++ c :: after → isLayoutChar c = false →
    ∃ p ∈ ps, p.span.start ≤ offset + String.utf8Len before
      ∧ offset + String.utf8Len before < p.span.stop

namespace CoveredBy

variable {p : Place} {ps : List Place} {offset : Nat} {gap rest : List Char}

/-- What stands before all the places is layout. -/
theorem layout_of_le (h : CoveredBy ps offset (gap ++ rest))
    (hstart : ∀ p ∈ ps, offset + String.utf8Len gap ≤ p.span.start) :
    ∀ c ∈ gap, isLayoutChar c = true := by
  intro c hc
  obtain ⟨before, after, rfl⟩ := List.append_of_mem hc
  by_contra hvisible
  obtain ⟨p, hp, hpstart, _⟩ := h before c (after ++ rest) (by simp) (by simpa using hvisible)
  have hlt := hstart p hp
  have := Char.utf8Size_pos c
  rw [String.utf8Len_append, String.utf8Len_cons] at hlt
  omega

/-- What stands after the first place is covered by the others. -/
theorem tail (h : CoveredBy (p :: ps) offset (gap ++ rest))
    (hstop : p.span.stop = offset + String.utf8Len gap) :
    CoveredBy ps (offset + String.utf8Len gap) rest := by
  intro before c after hsplit hvisible
  obtain ⟨q, hq, hqstart, hqstop⟩ := h (gap ++ before) c after (by simp [hsplit]) hvisible
  rw [String.utf8Len_append] at hqstart hqstop
  rcases List.mem_cons.mp hq with rfl | hq
  · omega
  · exact ⟨q, hq, by omega, by omega⟩

end CoveredBy

/-- Places that stand one after the other in what follows `left`, and cover it up to layout, show
what follows `left`. -/
theorem flatMap_visible_slice {ps : List Place} {left rest : List Char}
    (hsource : u.source.toList = left ++ rest)
    (hordered : ps.Pairwise fun p q => p.span.stop ≤ q.span.start)
    (hends : ∀ p ∈ ps, p.span.start ≤ p.span.stop
      ∧ Text.isBoundary u.source p.span.start = true
      ∧ Text.isBoundary u.source p.span.stop = true)
    (hleft : ∀ p ∈ ps, String.utf8Len left ≤ p.span.start)
    (hcover : CoveredBy ps (String.utf8Len left) rest) :
    (ps.flatMap fun p => visible (u.text p).toList) = visible rest := by
  induction ps generalizing left rest with
  | nil =>
    have hlayout : ∀ c ∈ rest, isLayoutChar c = true :=
      CoveredBy.layout_of_le ((List.append_nil rest).symm ▸ hcover)
        fun _ hp => absurd hp List.not_mem_nil
    rw [visible_eq_nil hlayout, List.flatMap_nil]
  | cons p ps ih =>
    obtain ⟨hle, hstart, hstop⟩ := hends p (List.mem_cons_self ..)
    rw [List.pairwise_cons] at hordered
    obtain ⟨gap, tail, rfl, hgap⟩ := Text.exists_append_of_le hstart hsource
      (hleft p (List.mem_cons_self ..))
    have hsource' : u.source.toList = (left ++ gap) ++ tail := by
      rw [hsource, List.append_assoc]
    obtain ⟨mid, rest, rfl, hmid⟩ := Text.exists_append_of_le hstop hsource'
      (by rw [String.utf8Len_append]; omega)
    have hlayout : ∀ c ∈ gap, isLayoutChar c = true := by
      refine hcover.layout_of_le fun q hq => ?_
      rcases List.mem_cons.mp hq with rfl | hq
      · omega
      · have := hordered.1 q hq
        omega
    have htext : (u.text p).toList = mid :=
      Text.toList_slice hsource' (by rw [String.utf8Len_append]; exact hgap)
        (by rw [String.utf8Len_append] at hmid; omega)
    have hrest : (ps.flatMap fun q => visible (u.text q).toList) = visible rest := by
      have hsource'' : u.source.toList = (left ++ gap ++ mid) ++ rest := by
        rw [hsource', List.append_assoc (left ++ gap)]
      refine ih hsource'' hordered.2 (fun q hq => hends q (List.mem_cons_of_mem _ hq)) ?_ ?_
      · intro q hq
        rw [String.utf8Len_append, ← hmid]
        exact hordered.1 q hq
      · rw [← List.append_assoc] at hcover
        have htail := hcover.tail (by simp only [String.utf8Len_append] at hmid ⊢; omega)
        simpa only [String.utf8Len_append, Nat.add_assoc] using htail
    rw [List.flatMap_cons, htext, hrest, visible_append, visible_append, visible_eq_nil hlayout,
      List.nil_append]

theorem flatMap_visible_eq (h : u.tiledOK = true) :
    ((tokenPlaces u.root).flatMap fun p => visible (u.text p).toList)
      = visible u.source.toList := by
  simp only [SourceUnit.tiledOK, Bool.and_eq_true, decide_eq_true_eq, List.all_eq_true] at h
  obtain ⟨⟨hordered, hends⟩, hcover⟩ := h
  refine flatMap_visible_slice (List.nil_append _).symm hordered
    (fun p hp => ⟨(hends p hp).1.1.1, (hends p hp).1.1.2, (hends p hp).1.2⟩)
    (fun _ _ => Nat.zero_le _) ?_
  intro before c after hsplit hvisible
  have hmem := Text.mem_charStarts before c after 0
  rw [← hsplit] at hmem
  have := hcover _ hmem
  rw [hvisible, Bool.false_or, List.any_eq_true] at this
  obtain ⟨p, hp, hspan⟩ := this
  rw [Bool.and_eq_true, decide_eq_true_eq, decide_eq_true_eq] at hspan
  exact ⟨p, hp, hspan⟩

/-! ## What a rendering shows -/

/-- What a test leaves out of a list is not missed where it contributes nothing. -/
theorem flatMap_filter_of_eq_nil {α β : Type} {p : α → Bool} {f : α → List β} {l : List α}
    (h : ∀ a ∈ l, p a = false → f a = []) : (l.filter p).flatMap f = l.flatMap f := by
  induction l with
  | nil => rfl
  | cons a l ih =>
    have ih := ih fun b hb => h b (List.mem_cons_of_mem _ hb)
    cases ha : p a with
    | true => rw [List.filter_cons_of_pos ha, List.flatMap_cons, List.flatMap_cons, ih]
    | false =>
      rw [List.filter_cons_of_neg (by simp [ha]), List.flatMap_cons, ih,
        h a (List.mem_cons_self ..) ha, List.nil_append]

/-- A rendering shows what is written for the token places. -/
theorem visible_render (h : u.tiledOK = true) (t : Symbols) (d : Dictionary) (ending : LineEnding) :
    visible (render u t d ending).toList
      = (tokenPlaces u.root).flatMap fun p => visible (writtenText u t d p).toList := by
  simp only [SourceUnit.tiledOK, Bool.and_eq_true, List.all_eq_true] at h
  -- a place that spans nothing is no name, and what is written for it is empty
  have hempty : ∀ p ∈ tokenPlaces u.root, ¬ p.span.start < p.span.stop →
      visible (writtenText u t d p).toList = [] := by
    intro p hp hspan
    obtain ⟨⟨⟨hle, hstart⟩, _⟩, hname⟩ := h.1.2 p hp
    rw [Bool.or_eq_true, decide_eq_true_eq, Bool.not_eq_true'] at hname
    obtain ⟨left, right, hsource, hleft⟩ := Text.exists_append_of_isBoundary hstart
    have htext : (u.text p).toList = [] :=
      Text.toList_slice (hsource.trans (by rw [List.nil_append])) hleft
        (by rw [decide_eq_true_eq] at hle; rw [String.utf8Len_nil]; omega)
    rw [writtenText, if_neg (by rw [hname.resolve_right hspan]; exact Bool.false_ne_true), htext,
      visible_nil]
  have hflat : ((tokens u t d).flatMap fun s => visible s.text.toList)
      = ((tokens u t d).map Token.text).flatMap fun s => visible s.toList := by
    rw [List.flatMap_map]
  rw [render, visible_emit, hflat, map_text_tokens, writtenPlaces, List.flatMap_map]
  exact flatMap_filter_of_eq_nil fun p hp hspan => hempty p hp (by simpa using hspan)

end Layout

end Legible
