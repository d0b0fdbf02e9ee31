import Legible.Proofs.Grammar.Tidy
import Legible.Proofs.Layout.Idempotence
import Legible.Proofs.Layout.TokenPlaces

/-!
# What stands between tokens

A joint is a pair of neighbours with the gap that is chosen between them. An output is read off its
joints: `emit_shape` gives it as the texts and the separators one after the other, with any
terminator, and says when an empty line stands in a separator.

What a separator keeps apart is the matter of `tokens_never_fuse`. A gap in code is checked against
fusion where it is chosen (`gapBetween_eq_glue`). A gap at a comment is chosen by the tokens around
the comment, and the gap on its other side decides: one of the two is never empty
(`gapAt_glue_ne_glue`).
-/

namespace Legible

namespace Gap

variable {eol : List Char} {g : Gap} {depth : Nat}

/-- What a gap writes before a token that is indented by `depth`. -/
def written (eol : List Char) (depth : Nat) : Gap → List Char
  | .glue => []
  | .space => [' ']
  | .newline => eol ++ List.replicate depth '\t'
  | .blank => eol ++ (eol ++ List.replicate depth '\t')

def endsLine (g : Gap) : Bool := 0 < g.lineFeeds

theorem withEndings_chars (eol : List Char) (depth : Nat) (g : Gap) :
    Layout.withEndings eol (g.chars depth) = g.written eol depth := by
  have htabs : Layout.withEndings eol (List.replicate depth '\t') = List.replicate depth '\t' :=
    Layout.withEndings_eq_self fun h => absurd (List.eq_of_mem_replicate h) (by decide)
  cases g <;> simp [chars, written, Layout.withEndings_cons, htabs]

theorem written_eq_nil (heol : eol ≠ []) (h : g.written eol depth = []) : g = .glue := by
  cases g <;> simp_all [written]

theorem infix_written (h : g.endsLine = true) (depth : Nat) : eol <:+: g.written eol depth := by
  cases g with
  | glue | space => simp [endsLine, lineFeeds] at h
  | newline | blank => exact (List.prefix_append _ _).isInfix

end Gap

namespace Layout

/-- Two neighbours and the gap between them. -/
structure Joint where
  left : Token
  gap : Gap
  right : Token

namespace Joint

def separator (eol : List Char) (j : Joint) : List Char := j.gap.written eol j.right.depth

/-- The text of the token on the left, as it is written there: where the line ends, the blanks at
its end go. -/
def text (eol : List Char) (j : Joint) : List Char :=
  if j.gap.endsLine then (withEndings eol j.left.text.toList).rdropWhile isLineBlank
  else withEndings eol j.left.text.toList

end Joint

variable {source : String} {ts : List Token} {j : Joint} {R : Token → Token → Prop} {prev t : Token}
  {code : Option Token} {gap : Gap} {zs : List (Gap × Token)} {p : Char → Bool} {eol : List Char}
  {e : Emission}

/-- The joints of `t` and the tokens after it, each with the gap before it. -/
def jointsFrom (t : Token) : List (Gap × Token) → List Joint
  | [] => []
  | z :: zs => ⟨t, z.1, z.2⟩ :: jointsFrom z.2 zs

def joints (source : String) : List Token → List Joint
  | [] => []
  | t :: ts => jointsFrom t ((gaps source (t :: ts)).zip ts)

/-! ## The gaps of the joints -/

theorem length_gapsFrom (source : String) (prev : Token) (code : Option Token) (gap : Gap)
    (ts : List Token) : (gapsFrom source prev code gap ts).length = ts.length := by
  induction ts generalizing prev code gap with
  | nil => rfl
  | cons t ts ih => rw [gapsFrom, List.length_cons, ih, List.length_cons]

theorem length_gaps (source : String) (t : Token) (ts : List Token) :
    (gaps source (t :: ts)).length = ts.length :=
  length_gapsFrom ..

def Joint.Chosen (source : String) (j : Joint) : Prop :=
  ∃ code gap, j.gap = gapAt (lineBreaks source j.left j.right) code gap j.left j.right

/-- The second joint follows the first, and was chosen with the gap of the first before it. -/
def Joint.Precedes (source : String) (j k : Joint) : Prop :=
  j.right = k.left
    ∧ ∃ code, k.gap = gapAt (lineBreaks source k.left k.right) code j.gap k.left k.right

theorem chosen_of_mem_jointsFrom
    (h : j ∈ jointsFrom prev ((gapsFrom source prev code gap ts).zip ts)) : j.Chosen source := by
  induction ts generalizing prev code gap with
  | nil => cases h
  | cons t ts ih =>
    rcases List.mem_cons.mp h with rfl | h
    · exact ⟨code, gap, rfl⟩
    · exact ih h

theorem isChain_jointsFrom (source : String) (prev : Token) (code : Option Token) (gap : Gap)
    (ts : List Token) :
    (jointsFrom prev ((gapsFrom source prev code gap ts).zip ts)).IsChain
      (Joint.Precedes source) := by
  induction ts generalizing prev code gap with
  | nil => exact .nil
  | cons t ts ih =>
    cases ts with
    | nil => exact .singleton _
    | cons s ts => exact .cons_cons ⟨rfl, _, rfl⟩ (ih t _ _)

theorem chosen_of_mem_joints (h : j ∈ joints source ts) : j.Chosen source := by
  cases ts with
  | nil => cases h
  | cons t ts => exact chosen_of_mem_jointsFrom h

theorem isChain_joints (source : String) (ts : List Token) :
    (joints source ts).IsChain (Joint.Precedes source) := by
  cases ts with
  | nil => exact .nil
  | cons t ts => exact isChain_jointsFrom ..

theorem map_left_jointsFrom (t : Token) (zs : List (Gap × Token)) :
    (jointsFrom t zs).map Joint.left = (t :: zs.map Prod.snd).dropLast := by
  induction zs generalizing t with
  | nil => rfl
  | cons z zs ih => rw [jointsFrom, List.map_cons, ih, List.map_cons, List.dropLast_cons_cons]

theorem map_right_jointsFrom (t : Token) (zs : List (Gap × Token)) :
    (jointsFrom t zs).map Joint.right = zs.map Prod.snd := by
  induction zs generalizing t with
  | nil => rfl
  | cons z zs ih => rw [jointsFrom, List.map_cons, ih, List.map_cons]

theorem map_snd_zip_gaps (source : String) (t : Token) (ts : List Token) :
    ((gaps source (t :: ts)).zip ts).map Prod.snd = ts :=
  List.map_snd_zip (Nat.le_of_eq (length_gaps source t ts).symm)

theorem left_mem_of_mem_joints (h : j ∈ joints source ts) : j.left ∈ ts := by
  cases ts with
  | nil => cases h
  | cons t ts =>
    have hleft := List.mem_map_of_mem (f := Joint.left) h
    rw [joints, map_left_jointsFrom, map_snd_zip_gaps] at hleft
    exact (List.dropLast_sublist _).subset hleft

theorem rel_of_mem_jointsFrom (hchain : (t :: zs.map Prod.snd).IsChain R)
    (h : j ∈ jointsFrom t zs) : R j.left j.right := by
  induction zs generalizing t with
  | nil => cases h
  | cons z zs ih =>
    rw [List.map_cons, List.isChain_cons_cons] at hchain
    rcases List.mem_cons.mp h with rfl | h
    · exact hchain.1
    · exact ih hchain.2 h

theorem rel_of_mem_joints (hchain : ts.IsChain R) (h : j ∈ joints source ts) :
    R j.left j.right := by
  cases ts with
  | nil => cases h
  | cons t ts => exact rel_of_mem_jointsFrom (by rwa [map_snd_zip_gaps]) h

/-! ## The choice of a gap -/

section Choice

variable {breaks : Nat} {next : Token}

theorem lineGap_eq_blank (h : lineGap breaks prev next = .blank) :
    2 ≤ breaks ∧ prev.opensBody = false ∧ next.closesBody = false := by
  unfold lineGap at h
  split at h
  · next hblank => simpa [allowsBlank] using hblank
  · cases h

theorem gapAt_eq_blank (h : gapAt breaks code gap prev next = .blank) :
    2 ≤ breaks ∧ prev.opensBody = false ∧ next.closesBody = false := by
  refine lineGap_eq_blank ?_
  unfold gapAt gapBeforeComment at h
  rw [gapAfterComment_eq] at h
  split at h
  · split at h
    · split at h
      · cases h
      · split at h <;> cases h
    · exact h
  · split at h
    · split at h
      · exact h
      · exact absurd h (gapAround_ne_blank code gap next)
    · split at h
      · exact h
      · exact absurd h (gapBetween_ne_blank prev next)

/-- Tokens of code stand together only if they are the braces of one body, at an angle bracket, or
where they do not fuse. -/
theorem gapBetween_eq_glue (h : gapBetween prev next = .glue) :
    isEmptyBody prev next = true ∨ prev.isAngle = true ∨ next.isAngle = true
      ∨ wouldFuse prev.text next.text = false := by
  unfold gapBetween at h
  split at h
  · next hempty => exact .inl hempty
  · right
    cases hprev : prev.isAngle with
    | true => exact .inl rfl
    | false =>
      cases hnext : next.isAngle with
      | true => exact .inr (.inl rfl)
      | false =>
        cases hfuse : wouldFuse prev.text next.text with
        | false => exact .inr (.inr rfl)
        | true =>
          cases hwish : stronger (after prev next) (before prev next) <;>
            simp [hprev, hnext, hfuse, hwish] at h

theorem lineGap_ne_glue : lineGap breaks prev next ≠ .glue := by
  unfold lineGap
  split <;> simp

/-- What touches the code before it was chosen to, comment or not. -/
theorem gapBetween_of_gapAt_eq_glue (hprev : prev.isComment = false)
    (h : gapAt breaks code gap prev next = .glue) : gapBetween prev next = .glue := by
  unfold gapAt gapBeforeComment at h
  rw [hprev, if_neg Bool.false_ne_true, if_neg Bool.false_ne_true] at h
  split at h
  · split at h
    · split at h
      · next hglue => exact beq_iff_eq.mp hglue
      · cases h
    · exact absurd h lineGap_ne_glue
  · split at h
    · exact absurd h lineGap_ne_glue
    · exact h

theorem wouldFuse_brace (text : String) : wouldFuse "\x7b" text = false := by
  unfold wouldFuse
  cases text.toList.head? with
  | none => rfl
  | some c =>
    have hword : isWordChar '\x7b' = false := by decide +kernel
    have hoperator : isOperatorChar '\x7b' = false := by decide
    simp [hword, hoperator]

theorem gapAround_glue_ne_glue : gapAround code .glue next ≠ .glue := by
  cases code with
  | none => simp [gapAround]
  | some code => cases h : gapBetween code next <;> simp [gapAround, h]

/-- A comment that touches the token before it does not touch the one after it. -/
theorem gapAt_glue_ne_glue (hprev : prev.isComment = true) :
    gapAt breaks code .glue prev next ≠ .glue := by
  unfold gapAt gapBeforeComment
  rw [hprev, if_pos rfl, if_pos rfl, gapAfterComment_eq]
  split
  · split
    · simp
    · exact lineGap_ne_glue
  · split
    · exact lineGap_ne_glue
    · exact gapAround_glue_ne_glue

end Choice

/-! ## The shape of an output -/

/-- Taking layout off the end of a text does not depend on the terminator. -/
theorem rdropWhile_withEndings (hp : (∀ c ∈ eol, p c = p '\n') ∧ eol ≠ []) (cs : List Char) :
    (withEndings eol cs).rdropWhile p = withEndings eol (cs.rdropWhile p) := by
  have hp' : (∀ c ∈ eol.reverse, p c = p '\n') ∧ eol.reverse ≠ [] := by simpa using hp
  rw [List.rdropWhile, reverse_withEndings, dropWhile_withEndings hp', reverse_withEndings,
    List.reverse_reverse, List.rdropWhile]

theorem terminator_alike (ending : LineEnding) (h : p '\r' = p '\n') :
    (∀ c ∈ ending.terminator.toList, p c = p '\n') ∧ ending.terminator.toList ≠ [] := by
  refine ⟨fun c hc => ?_, terminator_ne_nil ending⟩
  rcases eq_of_mem_terminator hc with rfl | rfl
  · exact h
  · rfl

theorem withEndings_settled (ending : LineEnding) (j : Joint) :
    withEndings ending.terminator.toList (settled j.gap j.left.text.toList)
      = j.text ending.terminator.toList := by
  unfold settled Joint.text Gap.endsLine
  by_cases hline : 0 < j.gap.lineFeeds
  · rw [if_pos hline, decide_eq_true hline, if_pos rfl,
      rdropWhile_withEndings (terminator_alike ending rfl)]
  · rw [if_neg hline, decide_eq_false hline, if_neg Bool.false_ne_true]

/-- What is assembled, with a terminator in place of the line feeds: the texts and separators of
the joints, and the last text. -/
theorem withEndings_assembled (ending : LineEnding) (t : Token) (zs : List (Gap × Token)) :
    withEndings ending.terminator.toList (assembled t zs)
      = ((jointsFrom t zs).flatMap fun j =>
          j.text ending.terminator.toList ++ j.separator ending.terminator.toList)
        ++ (withEndings ending.terminator.toList
          ((t :: zs.map Prod.snd).getLast (List.cons_ne_nil _ _)).text.toList).rdropWhile
            isLayoutChar := by
  induction zs generalizing t with
  | nil => exact (rdropWhile_withEndings (terminator_alike ending rfl) _).symm
  | cons z zs ih =>
    rw [assembled, withEndings_append, withEndings_append, ih, jointsFrom, List.flatMap_cons,
      withEndings_settled ending ⟨t, z.1, z.2⟩, Gap.withEndings_chars]
    simp [Joint.separator]

/-- The shape of an output: the texts of the tokens with their separators, the last text, and one
terminator. The separators are those of the neighbours; each is empty, a space, or the end of a line
with the indentation of the next token, after an empty line only where the source has one and no
body begins or ends. No line ends in a blank there. -/
theorem emit_shape (source : String) (ending : LineEnding) {t : Token} {ts : List Token}
    (hts : ∀ s ∈ t :: ts, s.startsVisible = true) :
    let eol := ending.terminator.toList
    let js := joints source (t :: ts)
    (emit source ending (t :: ts)).toList
        = (js.flatMap fun j => j.text eol ++ j.separator eol)
          ++ ((withEndings eol ((t :: ts).getLast (List.cons_ne_nil t ts)).text.toList).rdropWhile
            isLayoutChar ++ eol)
      ∧ js.map Joint.left = (t :: ts).dropLast ∧ js.map Joint.right = ts
      ∧ ∀ j ∈ js,
        (j.separator eol = [] ∨ j.separator eol = [' ']
          ∨ j.separator eol = eol ++ List.replicate j.right.depth '\t'
          ∨ (j.separator eol = eol ++ (eol ++ List.replicate j.right.depth '\t')
            ∧ 2 ≤ lineBreaks source j.left j.right
            ∧ j.left.opensBody = false ∧ j.right.closesBody = false))
        ∧ (j.gap.endsLine = true → ∀ c ∈ (j.text eol).getLast?, isLineBlank c = false) := by
  intro eol js
  have hsnd := map_snd_zip_gaps source t ts
  refine ⟨?_, ?_, ?_, fun j hj => ⟨?_, fun hline c hc => ?_⟩⟩
  · have hlf : withEndings eol ['\n'] = eol := by simp [withEndings]
    rw [emit_eq_withEndings, emit_lf_cons source hts, withEndings_append, hlf,
      withEndings_assembled]
    simp only [hsnd, List.append_assoc]
    rfl
  · exact (map_left_jointsFrom ..).trans (by rw [hsnd])
  · exact (map_right_jointsFrom ..).trans hsnd
  · obtain ⟨code, gap, hgap⟩ := chosen_of_mem_joints hj
    unfold Joint.separator
    cases hwritten : j.gap with
    | glue => exact .inl rfl
    | space => exact .inr (.inl rfl)
    | newline => exact .inr (.inr (.inl rfl))
    | blank => exact .inr (.inr (.inr ⟨rfl, gapAt_eq_blank (hgap.symm.trans hwritten)⟩))
  · rw [Joint.text, if_pos hline, List.rdropWhile, List.getLast?_reverse] at hc
    have hnot := List.head?_dropWhile_not isLineBlank (withEndings eol j.left.text.toList).reverse
    rw [Option.mem_def.mp hc] at hnot
    simpa using hnot

/-- A statement after an empty line, and a comment of two lines with blanks before its line feed and
at its end. -/
theorem emit_shape_comment :
    let source := "x ;\n\n\n y /* a \nb */"
    let t := topToken "identifier" "x" 0 1
    let ts := [topToken ";" ";" 2 3, topToken "identifier" "y" 7 8,
      topToken "block_comment" "/* a \nb */ \t" 9 22]
    let eol := LineEnding.crlf.terminator.toList
    let js := joints source (t :: ts)
    emit source .crlf (t :: ts) = "x;\r\n\r\ny /* a \r\nb */\r\n"
      ∧ js.map (Joint.separator eol) = [[], ['\r', '\n', '\r', '\n'], [' ']]
      ∧ js.map Joint.right = ts
      ∧ (emit source .crlf (t :: ts)).toList
        = (js.flatMap fun j => j.text eol ++ j.separator eol)
          ++ ((withEndings eol ((t :: ts).getLast (List.cons_ne_nil t ts)).text.toList).rdropWhile
            isLayoutChar ++ eol) := by
  intro source t ts eol js
  obtain ⟨hemit, -, hright, -⟩ := @emit_shape source .crlf t ts (by decide +kernel)
  exact ⟨by decide +kernel, by decide +kernel, hright, hemit⟩

/-! ## Fusion -/

def writeAll (eol out : List Char) (zs : List (Gap × Token)) : List Char :=
  zs.foldl (fun out z => writeText eol z.2.text.toList (writeGap eol z.1 z.2.depth out)) out

theorem foldl_push_eq_writeAll (source : String) (eol : List Char) (ts : List Token)
    (hlast : e.last = some prev) :
    (ts.foldl (Emission.push source eol) e).out
      = writeAll eol e.out ((gapsFrom source prev e.code e.gap ts).zip ts) := by
  induction ts generalizing e prev with
  | nil => rfl
  | cons t ts ih =>
    have hpush : (e.push source eol t).last = some t := by simp [Emission.push, hlast]
    rw [List.foldl_cons, ih hpush]
    simp only [Emission.push, hlast, gapsFrom, List.zip_cons_cons]
    rfl

/-- An output is written with the gaps of its joints. -/
theorem emit_eq_writeAll (source : String) (ending : LineEnding) (ts : List Token) :
    emit source ending ts
      = String.ofList (((writeAll ending.terminator.toList []
          ((Gap.glue :: gaps source ts).zip ts)).dropWhile isLayoutChar).reverse
            ++ ending.terminator.toList) := by
  cases ts with
  | nil => rfl
  | cons t ts =>
    have hpush : (({} : Emission).push source ending.terminator.toList t).last = some t := rfl
    rw [emit, List.foldl_cons, foldl_push_eq_writeAll source _ ts hpush]
    rfl

/-- Whether what the tree has as an opening brace is one in the text. -/
def bracesOK (u : SourceUnit) : Bool :=
  u.root.places.all fun p => p.kind != "\x7b" || u.text p == "\x7b"

theorem text_of_opensBody {u : SourceUnit} (h : bracesOK u = true) {t : Symbols} {d : Dictionary}
    {s : Token} (hs : s ∈ tokens u t d) (hopens : s.opensBody = true) : s.text = "\x7b" := by
  rw [tokens_eq_map] at hs
  obtain ⟨p, hp, rfl⟩ := List.mem_map.mp hs
  have hkind : p.kind = "\x7b" := by
    rw [Token.opensBody, Token.isBodyBrace, Bool.and_eq_true] at hopens
    exact beq_iff_eq.mp hopens.1
  have hname : p.node.isName = false := by
    rw [Node.isName, ← Place.kind, hkind]
    decide
  have htext := List.all_eq_true.mp h p (mem_places_of_mem_writtenPlaces hp)
  rw [hkind, bne_self_eq_false, Bool.false_or, beq_iff_eq] at htext
  rw [tokenAt, writtenText, hname, if_neg Bool.false_ne_true, htext]

/-- Tokens never fuse. In a list of tokens whose line comments end with their lines and whose bodies
open with a brace, an output is written with the separators of its joints: after a line comment a
line ends, code that touches the next token does not fuse with it unless one of them is an angle
bracket, and no comment touches both of its neighbours. The bodies of a unit open with a brace where
its tree has the braces of its text. -/
theorem tokens_never_fuse (source : String) (ending : LineEnding) :
    (∀ (u : SourceUnit) (t : Symbols) (d : Dictionary), bracesOK u = true →
      ∀ s ∈ tokens u t d, s.opensBody = true → s.text = "\x7b")
    ∧ ∀ ts : List Token,
      ts.IsChain (fun s t => s.kind = "line_comment" → 0 < lineBreaks source s t) →
      (∀ t ∈ ts, t.opensBody = true → t.text = "\x7b") →
      let eol := ending.terminator.toList
      emit source ending ts
          = String.ofList (((writeAll eol [] ((Gap.glue :: gaps source ts).zip ts)).dropWhile
            isLayoutChar).reverse ++ eol)
        ∧ (∀ j ∈ joints source ts,
          (j.left.kind = "line_comment" → eol <:+: j.separator eol)
          ∧ (j.left.isComment = false → j.separator eol = [] →
            j.left.isAngle = true ∨ j.right.isAngle = true
              ∨ wouldFuse j.left.text j.right.text = false))
        ∧ (joints source ts).IsChain fun j k => j.right = k.left
          ∧ (j.right.isComment = true → ¬ (j.separator eol = [] ∧ k.separator eol = [])) := by
  refine ⟨fun u t d hu s hs => text_of_opensBody hu hs, fun ts hends hbraces => ?_⟩
  intro eol
  have heol : eol ≠ [] := terminator_ne_nil ending
  refine ⟨emit_eq_writeAll source ending ts, fun j hj => ⟨fun hkind => ?_, fun hcode hnil => ?_⟩,
    ?_⟩
  · obtain ⟨code, gap, hgap⟩ := chosen_of_mem_joints hj
    have hbreak : 0 < lineBreaks source j.left j.right := rel_of_mem_joints hends hj hkind
    refine Gap.infix_written (decide_eq_true ?_) _
    rw [hgap]
    exact gapAt_endsLine hkind hbreak code gap
  · obtain ⟨code, gap, hgap⟩ := chosen_of_mem_joints hj
    have hglue := gapBetween_of_gapAt_eq_glue hcode (hgap.symm.trans (Gap.written_eq_nil heol hnil))
    rcases gapBetween_eq_glue hglue with hempty | hangle
    · have hopens : j.left.opensBody = true := by
        simp only [isEmptyBody, Bool.and_eq_true] at hempty
        exact hempty.1.1
      rw [hbraces _ (left_mem_of_mem_joints hj) hopens]
      exact .inr (.inr (wouldFuse_brace _))
    · exact hangle
  · refine (isChain_joints source ts).imp fun j k hprecedes => ?_
    obtain ⟨hright, code, hgap⟩ := hprecedes
    refine ⟨hright, fun hcomment hboth => ?_⟩
    rw [Gap.written_eq_nil heol hboth.1] at hgap
    exact gapAt_glue_ne_glue (hright ▸ hcomment) (hgap.symm.trans (Gap.written_eq_nil heol hboth.2))

/-- A unit with bodies, and a list with a line comment before a body, a block comment at the end of
a call, and the braces of an empty body. -/
theorem tokens_never_fuse_comments :
    let source := "a // b\n(c/* d */) \x7b \x7d"
    let block := some (topToken "block" "" 18 21).label
    let opens := { topToken "\x7b" "\x7b" 18 19 with parent := block }
    let closes := { topToken "\x7d" "\x7d" 20 21 with parent := block }
    let ts := [topToken "identifier" "a" 0 1, topToken "line_comment" "// b" 2 6,
      topToken "(" "(" 7 8, topToken "identifier" "c" 8 9,
      topToken "block_comment" "/* d */" 9 16, topToken ")" ")" 16 17, opens, closes]
    let eol := LineEnding.cr.terminator.toList
    (∀ s ∈ tokens Sample.box {} .empty, s.opensBody = true → s.text = "\x7b")
      ∧ emit source .cr ts = "a // b\r(c /* d */) \x7b\x7d\r"
      ∧ (joints source ts).map (·.gap) = [.space, .newline, .glue, .space, .glue, .space, .glue]
      ∧ (∀ j ∈ joints source ts,
        (j.left.kind = "line_comment" → eol <:+: j.separator eol)
        ∧ (j.left.isComment = false → j.separator eol = [] →
          j.left.isAngle = true ∨ j.right.isAngle = true
            ∨ wouldFuse j.left.text j.right.text = false))
      ∧ (joints source ts).IsChain fun j k => j.right = k.left
        ∧ (j.right.isComment = true → ¬ (j.separator eol = [] ∧ k.separator eol = [])) := by
  intro source block opens closes ts eol
  obtain ⟨hbraces, hlists⟩ := tokens_never_fuse source .cr
  obtain ⟨-, hjoints, hcomments⟩ := hlists ts (by decide +kernel) (by decide +kernel)
  exact ⟨hbraces Sample.box {} .empty (by decide +kernel), by decide +kernel, by decide +kernel,
    hjoints, hcomments⟩

end Layout

end Legible
