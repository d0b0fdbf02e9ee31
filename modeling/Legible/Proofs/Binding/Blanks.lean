import Legible.Proofs.Binding.Redrawn
import Legible.Proofs.Layout.Renaming

/-!
# Blanks and the meaning of names

The same tokens may be written with other blanks between them. The tree is then the same, but its
nodes span other bytes (`Node.respan`), and the text of a node that has several tokens is another.
Types are read token by token, and so are the names in expressions; the names of packages and
imports are read as they stand. If these are written alike (`SourceUnit.Reblanks`), all names mean
the same (`names_reblanked`). A blank in the name of a package gets into the keys of its types
(`package_with_blanks`).
-/

namespace Legible

open Place

/-! ## Trees with other spans -/

mutual

/-- The tree with the node numbered `n` at `spans n`. -/
def Node.respan (spans : Nat → Span) : Node → Node
  | .mk label children =>
    .mk { label with span := spans label.number } (Node.respanIn spans children)

def Node.respanIn (spans : Nat → Span) : List Node → List Node
  | [] => []
  | n :: ns => n.respan spans :: Node.respanIn spans ns

end

def Place.respan (spans : Nat → Span) (p : Place) : Place :=
  ⟨p.node.respan spans, p.above.map (Node.respan spans)⟩

variable {spans : Nat → Span}

theorem Node.respanIn_eq (ns : List Node) : Node.respanIn spans ns = ns.map (Node.respan spans) := by
  induction ns with
  | nil => rfl
  | cons n ns ih => rw [Node.respanIn, ih, List.map_cons]

theorem Node.respan_eq (n : Node) : n.respan spans
    = .mk { n.label with span := spans n.number } (n.children.map (Node.respan spans)) := by
  obtain ⟨label, children⟩ := n
  rw [Node.respan, respanIn_eq]
  rfl

theorem Node.height_respan (n : Node) : (n.respan spans).height = n.height := by
  induction n using Node.induction with
  | mk label children ih =>
    rw [Node.respan, respanIn_eq, height, height, heights_map ih]

theorem redrawing_respan (spans : Nat → Span) : Redrawing (Place.respan spans) Place.children where
  number p := congrArg (·.label.number) (Node.respan_eq p.node)
  kind p := congrArg (·.label.kind) (Node.respan_eq p.node)
  role p := congrArg (·.label.role) (Node.respan_eq p.node)
  named p := congrArg (·.label.named) (Node.respan_eq p.node)
  height p := Node.height_respan p.node
  parent? := by rintro ⟨n, _ | ⟨m, above⟩⟩ <;> rfl
  children p := by
    rw [Place.children, Place.children, List.map_map]
    show (p.node.respan spans).children.map _ = _
    rw [Node.respan_eq, Node.children, List.map_map]
    rfl
  kept_subset _ _ hq := hq
  remarks _ := rfl
  counted _ _ := rfl
  first _ _ := rfl
  typePart _ _ _ := rfl

/-! ## Units with other blanks -/

namespace SourceUnit

/-- The unit `u'` is the unit `u` with other blanks: it has the same tree, but for the spans, the
same tokens, and the same names of packages and imports. -/
structure Reblanks (u u' : SourceUnit) (spans : Nat → Span) : Prop where
  root : u'.root = u.root.respan spans
  token : ∀ p ∈ u.root.places, p.node.isLeaf = true → u'.text (p.respan spans) = u.text p
  header : ∀ p ∈ u.root.places, p.isHeaderName = true → u'.text (p.respan spans) = u.text p

/-- What the grammar makes one token is one: fields, numbers, and the type that stands for one that
is left out. -/
def tokensOK (u : SourceUnit) : Bool :=
  u.root.places.all fun p => p.node.isLeaf
    || (p.role != some "field" && !p.isNumber && (p.role != some "type" || u.text p != "var"))

theorem isLeaf_of_tokensOK {u : SourceUnit} (h : u.tokensOK = true) {p : Place}
    (hp : p ∈ u.root.places)
    (htoken : p.role = some "field" ∨ p.isNumber = true
      ∨ p.role = some "type" ∧ u.text p = "var") : p.node.isLeaf = true := by
  have hp := List.all_eq_true.mp h p hp
  rcases htoken with hrole | hnumber | ⟨hrole, htext⟩
  · simpa [hrole] using hp
  · simpa [hnumber] using hp
  · simpa [hrole, htext] using hp

namespace Reblanks

variable {u u' : SourceUnit} {n : Node} {above : List Node} (h : u.Reblanks u' spans) {p : Place}

include h

theorem top : u'.top = u.top.respan spans := congrArg Place.top h.root

theorem mem_places (hp : p ∈ u.root.places) : p.respan spans ∈ u'.root.places := by
  have hself : u.top.respan spans ∈ u'.root.places := h.top ▸ mem_below_self u'.top
  refine below_induction (motive := fun p => p.respan spans ∈ u'.root.places) hself
    (fun r _ q hq hr => mem_places_of_mem_children hr ?_) p hp
  rw [(redrawing_respan spans).children]
  exact List.mem_map_of_mem hq

theorem typeTokens (hp : ⟨n, above⟩ ∈ u.root.places) :
    (n.respan spans).typeTokens u'.source = n.typeTokens u.source := by
  induction n using Node.induction generalizing above with
  | mk label children ih =>
    have hchildren := Node.typeTokensIn_map fun m hm =>
      ih m hm (mem_places_of_mem_children hp (List.mem_map_of_mem hm))
    rw [Node.respan, Node.respanIn_eq, Node.typeTokens, Node.typeTokens, List.isEmpty_map,
      hchildren]
    cases hleaf : children.isEmpty with
    | false => rfl
    | true =>
      have htext : Text.slice u'.source (spans label.number)
          = Text.slice u.source label.span := by
        have htext := h.token _ hp hleaf
        rwa [SourceUnit.text, Place.respan, Node.respan] at htext
      simp only [if_true, htext]

theorem typeText_node (hp : ⟨n, above⟩ ∈ u.root.places) :
    (n.respan spans).typeText u'.source = n.typeText u.source := by
  induction n using Node.induction generalizing above with
  | mk label children ih =>
    have hchildren := Node.firstTypeText_map (fun m => congrArg (·.label.named) (Node.respan_eq m))
      fun m hm => ih m hm (mem_places_of_mem_children hp (List.mem_map_of_mem hm))
    have htokens := h.typeTokens hp
    rw [Node.respan, Node.respanIn_eq] at htokens ⊢
    rw [Node.typeText, Node.typeText, htokens, hchildren]

theorem typeText (hp : p ∈ u.root.places) : u'.typeText (p.respan spans) = u.typeText p :=
  h.typeText_node hp

/-- What names a construct that has no qualified name is one token, or the underscore. -/
theorem plainName (hu : u.Parted) (hu' : u'.Parted) (hp : p ∈ u.root.places)
    (hrole : p.role = some "name") (hplain : p.parent?.any namesPlainly = true) :
    u'.text (p.respan spans) = u.text p := by
  have hredrawn := redrawing_respan spans
  have hparent : p.parentKind?.any qualifiedNameParents.contains = false := by
    obtain ⟨r, hr, hplain⟩ := Option.any_eq_true _ _ |>.mp hplain
    have hparts := hu.parts r (mem_places_of_parent? hp hr).1
    rw [parentKind?_eq, hr]
    refine Bool.eq_false_iff.mpr fun hkind => ?_
    have hkind : qualifiedNameParents.contains r.kind = true := hkind
    simp only [partsOK, hkind, Bool.and_eq_true] at hparts
    have hparam : r.isParameter = true := by
      rwa [namesPlainly, hkind, Bool.not_true, Bool.false_or] at hplain
    have hin : inParameterList r = false := by simpa using hparts.2
    simp only [isParameter, hin, Bool.or_false, Bool.or_eq_true, beq_iff_eq] at hparam
    rcases hparam with (hparam | hparam) | hparam <;> rw [hparam] at hkind <;> cases hkind
  have hok := hu.role p hp
  have hok' := hu'.role _ (h.mem_places hp)
  have hname : (p.respan spans).node.isName = p.node.isName :=
    congrArg (fun kind => kind == "identifier" || kind == "type_identifier") (hredrawn.kind p)
  simp only [roleOK, hredrawn.role, hredrawn.parentKind?, hrole, hparent, hname, bne_self_eq_false,
    Bool.false_or, Bool.or_false, Bool.or_eq_true, beq_iff_eq] at hok hok'
  cases hisName : p.node.isName with
  | true => exact h.token p hp (hu.name p hp hisName).1
  | false =>
    simp only [hisName, Bool.false_eq_true, false_or] at hok hok'
    rw [hok, hok']

theorem respelling (hu : u.Parted) (hu' : u'.Parted) (htokens : u.tokensOK = true) :
    Respelling u u' (Place.respan spans) Place.children where
  toRedrawing := redrawing_respan spans
  top := h.top
  quoted _ hp _ := h.typeText hp
  read p hp hread := by
    simp only [isRead, Bool.or_eq_true, Bool.and_eq_true, beq_iff_eq] at hread
    rcases hread with ((((hleaf | hname) | hnumber) | hfield) | hheader) | ⟨hrole, hplain⟩
    · exact h.token p hp hleaf
    · exact h.token p hp (hu.name p hp hname).1
    · exact h.token p hp (isLeaf_of_tokensOK htokens hp (.inr (.inl hnumber)))
    · exact h.token p hp (isLeaf_of_tokensOK htokens hp (.inl hfield))
    · exact h.header p hp hheader
    · exact h.plainName hu hu' hp hrole hplain

/-- A type is left to the value of its variable with any blanks. -/
theorem isVar (htokens : u.tokensOK = true) (htokens' : u'.tokensOK = true)
    (hp : p ∈ u.root.places) (hrole : p.role = some "type") :
    (u'.text (p.respan spans) == "var") = (u.text p == "var") := by
  cases hleaf : p.node.isLeaf with
  | true => rw [h.token p hp hleaf]
  | false =>
    have hvar : u.text p ≠ "var" := fun hvar => by
      rw [isLeaf_of_tokensOK htokens hp (.inr (.inr ⟨hrole, hvar⟩))] at hleaf
      cases hleaf
    have hvar' : u'.text (p.respan spans) ≠ "var" := fun hvar => by
      have hrole' : (p.respan spans).role = some "type" :=
        ((redrawing_respan spans).role p).trans hrole
      have hleaf' := isLeaf_of_tokensOK htokens' (h.mem_places hp) (.inr (.inr ⟨hrole', hvar⟩))
      rw [Node.isLeaf_eq_height, (redrawing_respan spans).height, ← Node.isLeaf_eq_height,
        hleaf] at hleaf'
      cases hleaf'
    rw [beq_false_of_ne hvar, beq_false_of_ne hvar']

end Reblanks

end SourceUnit

open SourceUnit

theorem rebinding_respan {c : BindingInput} {u' : SourceUnit} (h : c.unit.Reblanks u' spans)
    (hu : c.unit.Parted) (hu' : u'.Parted) (htokens : c.unit.tokensOK = true)
    (htokens' : u'.tokensOK = true) : Rebinding c u' (Place.respan spans) Place.children where
  toRespelling := h.respelling hu hu' htokens
  distinct _ _ hp hq heq := Node.eq_of_number_eq hu.numbers hp hq heq
  leftOut _ hp _ htype := h.isVar htokens htokens' (hp.role htype) (role_of_child? htype)

/-- Units with other blanks have the same index. -/
theorem build_reblanked {units units' : List SourceUnit}
    (h : List.Forall₂ (fun u u' => ∃ spans, u.Reblanks u' spans) units units')
    (hshaped : ∀ u ∈ units ++ units', u.shapedOK = true)
    (htokens : ∀ u ∈ units, u.tokensOK = true) : Index.build units' = Index.build units := by
  have hfold : ∀ ix : Index, units'.foldl Index.addUnit ix = units.foldl Index.addUnit ix := by
    induction h with
    | nil => exact fun _ => rfl
    | @cons u u' units units' hu _ ih =>
      intro ix
      obtain ⟨spans, hu⟩ := hu
      have hparted := parted_of_shapedOK (hshaped u (by simp))
      have hparted' := parted_of_shapedOK (hshaped u' (by simp))
      rw [List.foldl_cons, List.foldl_cons,
        (hu.respelling hparted hparted' (htokens u List.mem_cons_self)).addUnit]
      refine ih (fun v hv => hshaped v ?_) (fun v hv => htokens v (List.mem_cons_of_mem _ hv)) _
      rcases List.mem_append.mp hv with hv | hv <;> simp [hv]
  rw [Index.build, Index.build, hfold]

/-- The names of a unit do not depend on its blanks, nor on those of the other units, if packages
and imports are written alike: with other blanks the symbols are the same, and each name is found
and written as before. -/
theorem names_reblanked {units units' : List SourceUnit}
    (h : List.Forall₂ (fun u u' => ∃ spans, u.Reblanks u' spans) units units')
    (hshaped : ∀ u ∈ units ++ units', u.shapedOK = true)
    (htokens : ∀ u ∈ units ++ units', u.tokensOK = true) (d : Dictionary) (policy : NamingPolicy)
    {number : Nat} {u u' : SourceUnit} (hu : units[number]? = some u)
    (hu' : units'[number]? = some u') :
    ∃ a b, (analyze d policy units)[number]? = some a
      ∧ (analyze d policy units')[number]? = some b
      ∧ a.unit = u ∧ b.unit = u' ∧ b.symbols = a.symbols
      ∧ (Symbols.namePlaces u').map (fun p => (p.number, u'.text p))
          = (Symbols.namePlaces u).map (fun p => (p.number, u.text p))
      ∧ ∀ p ∈ Symbols.namePlaces u, ∀ q ∈ Symbols.namePlaces u', q.number = p.number →
          b.symbols.keyOf? q = a.symbols.keyOf? p
            ∧ b.symbols.replacement? d q = a.symbols.replacement? d p := by
  have hmem : u ∈ units ++ units' := List.mem_append_left _ (List.mem_of_getElem? hu)
  have hmem' : u' ∈ units ++ units' := List.mem_append_right _ (List.mem_of_getElem? hu')
  obtain ⟨spans, hblanks⟩ : ∃ spans, u.Reblanks u' spans := by
    obtain ⟨hlt, rfl⟩ := List.getElem?_eq_some_iff.mp hu
    obtain ⟨hlt', rfl⟩ := List.getElem?_eq_some_iff.mp hu'
    exact (List.forall₂_iff_get.mp h).2 number hlt hlt'
  have hbuild := build_reblanked h hshaped fun u hu => htokens u (List.mem_append_left _ hu)
  have hrebinding := rebinding_respan (c := ⟨u, number, Index.build units⟩) hblanks
    (parted_of_shapedOK (hshaped u hmem)) (parted_of_shapedOK (hshaped u' hmem'))
    (htokens u hmem) (htokens u' hmem')
  have hnames : (Symbols.namePlaces u').map (fun p => (p.number, u'.text p))
      = (Symbols.namePlaces u).map fun p => (p.number, u.text p) := by
    rw [hrebinding.namePlaces, List.map_map]
    refine List.map_congr_left fun p hp => ?_
    obtain ⟨hp, hname⟩ := List.mem_filter.mp hp
    have htext : u'.text (p.respan spans) = u.text p :=
      hrebinding.read p hp (by simp [isRead, hname])
    rw [Function.comp_apply, hrebinding.number, htext]
  have hsymbols := ofUnit_congr hrebinding.traverse hnames d policy
  refine ⟨⟨u, Symbols.ofUnit d policy ⟨u, number, Index.build units⟩⟩,
    ⟨u', Symbols.ofUnit d policy ⟨u', number, Index.build units⟩⟩, ?_, ?_, rfl, rfl, hsymbols,
    hnames, fun p _ q _ hpq => ?_⟩
  · rw [getElem?_analyze, hu, Option.map_some]
  · rw [getElem?_analyze, hu', Option.map_some, hbuild]
  have hresolution : ∀ t : Symbols, t.resolution? q = t.resolution? p := fun t => by
    rw [Symbols.resolution?, Symbols.resolution?, hpq]
  have hsymbols : Symbols.ofUnit d policy ⟨u', number, Index.build units⟩
      = Symbols.ofUnit d policy ⟨u, number, Index.build units⟩ := hsymbols
  simp only [hsymbols, Symbols.keyOf?, Symbols.replacement?, hresolution, and_self]

namespace Sample

/-- A class of a package with a field of its own type. -/
def packaged : SourceUnit where
  path := "C.java"
  source := "package a.b;class C\x7ba.b.C f;\x7d"
  root :=
    node 0 "program" 0 29 none [
     node 1 "package_declaration" 0 12 none [mark 2 "package" 0 7,
      node 3 "scoped_identifier" 8 11 none [name 4 8 9 "scope", mark 5 "." 9 10,
       name 6 10 11 "name"], mark 7 ";" 11 12],
     node 8 "class_declaration" 12 29 none [mark 9 "class" 12 17, name 10 18 19 "name",
      node 11 "class_body" 19 29 (some "body") [mark 12 "\x7b" 19 20,
       node 13 "field_declaration" 20 28 none [
        node 14 "scoped_type_identifier" 20 25 (some "type") [
         node 15 "scoped_type_identifier" 20 23 none [node 16 "type_identifier" 20 21 none [],
          mark 17 "." 21 22, node 18 "type_identifier" 22 23 none []], mark 19 "." 23 24,
         node 20 "type_identifier" 24 25 none []],
        node 21 "variable_declarator" 26 27 (some "declarator") [name 22 26 27 "name"],
        mark 23 ";" 27 28], mark 24 "\x7d" 28 29]]]

def spansOf (spans : List (Nat × Nat)) (number : Nat) : Span :=
  let span := spans.getD number (0, 0)
  ⟨span.1, span.2⟩

def looseSpans : Nat → Span :=
  spansOf [(0, 35), (0, 12), (0, 7), (8, 11), (8, 9), (9, 10), (10, 11), (11, 12), (12, 35),
    (12, 17), (18, 19), (20, 35), (20, 21), (21, 34), (21, 30), (21, 26), (21, 22), (23, 24),
    (25, 26), (27, 28), (29, 30), (31, 32), (31, 32), (33, 34), (34, 35)]

/-- The class with blanks, also in the type of its field. -/
def loose : SourceUnit where
  path := "C.java"
  source := "package a.b;class C \x7ba . b . C f ;\x7d"
  root := packaged.root.respan looseSpans

def spacedSpans : Nat → Span :=
  spansOf [(0, 31), (0, 14), (0, 7), (8, 13), (8, 9), (10, 11), (12, 13), (13, 14), (14, 31),
    (14, 19), (20, 21), (21, 31), (21, 22), (22, 30), (22, 27), (22, 25), (22, 23), (23, 24),
    (24, 25), (25, 26), (26, 27), (28, 29), (28, 29), (29, 30), (30, 31)]

/-- The class with blanks in the name of its package. -/
def spaced : SourceUnit where
  path := "C.java"
  source := "package a . b;class C\x7ba.b.C f;\x7d"
  root := packaged.root.respan spacedSpans

theorem packaged_reblanks_loose : packaged.Reblanks loose looseSpans where
  root := rfl
  token := by decide +kernel
  header := by decide +kernel

end Sample

theorem names_reblanked_loose :
    Sample.packaged.Reblanks Sample.loose Sample.looseSpans
      ∧ (∀ u ∈ [Sample.packaged, Sample.loose], u.shapedOK = true ∧ u.tokensOK = true)
      ∧ ∃ a b, (analyze .empty .preserve [Sample.packaged])[0]? = some a
        ∧ (analyze .empty .preserve [Sample.loose])[0]? = some b ∧ b.symbols = a.symbols := by
  have hok : ∀ u ∈ [Sample.packaged, Sample.loose], u.shapedOK = true ∧ u.tokensOK = true := by
    decide +kernel
  obtain ⟨a, b, ha, hb, -, -, hsymbols, -⟩ :=
    names_reblanked (.cons ⟨_, Sample.packaged_reblanks_loose⟩ .nil) (fun u hu => (hok u hu).1)
      (fun u hu => (hok u hu).2) .empty .preserve
      (show [Sample.packaged][0]? = some Sample.packaged from rfl)
      (show [Sample.loose][0]? = some Sample.loose from rfl)
  exact ⟨Sample.packaged_reblanks_loose, hok, a, b, ha, hb, hsymbols⟩

/-- A blank in the name of a package is one in the keys of its types, and a name in the package is
not found by its key. All tokens are the same. -/
theorem package_with_blanks :
    let keysOf (u : SourceUnit) :=
      (analyze .empty .preserve [u]).map fun a =>
        (Symbols.namePlaces a.unit).filterMap a.symbols.keyOf?
    (∀ p ∈ Sample.packaged.root.places, p.node.isLeaf = true →
        Sample.spaced.text (p.respan Sample.spacedSpans) = Sample.packaged.text p)
      ∧ keysOf Sample.packaged = [[("a.b.C", .valid), ("a.b.C", .valid), ("a.b.C.f", .valid)]]
      ∧ keysOf Sample.spaced
          = [[("a . b.C", .valid), ("a.b.C", .missing), ("a . b.C.f", .valid)]] := by
  decide +kernel

end Legible
