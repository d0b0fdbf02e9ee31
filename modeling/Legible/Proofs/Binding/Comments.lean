import Legible.Proofs.Binding.Redrawn
import Legible.Proofs.Layout.Renaming
import Legible.Proofs.Tree.Comments

/-!
# Comments and the meaning of names

Comments that are not read change nothing: the index of units without them is that of the units
(`build_uncommented`), and the traversal of such a unit does what the traversal of the unit does
(`traverse_bare`), so every name means the same (`names_without_comments`).
-/

namespace Legible

open Place Binder

variable {c : BindingInput}

/-! ## Bare units -/

theorem respelling_bare (u : SourceUnit) : Respelling u u.bare Place.bare bareChildren where
  toRedrawing := redrawing_bare
  top := rfl
  quoted _ _ hstarts := u.typeText_bare (isQuoted_of_startsQuote hstarts)
  read p _ _ := u.text_bare p

theorem rebinding_bare (hnumbers : (c.unit.root.places.map Place.number).Nodup) :
    Rebinding c c.unit.bare Place.bare bareChildren where
  toRespelling := respelling_bare c.unit
  distinct _ _ hp hq h := Node.eq_of_number_eq hnumbers hp hq h
  leftOut _ _ type _ := by rw [c.unit.text_bare type]

/-! ## Units of comments only -/

section Remarks

variable {u : SourceUnit} (h : u.isRemark = true)

theorem foldl_of_remarks {β : Type} {f : β → Place → β}
    (hf : ∀ b q, q.isRemark = true → f b q = b) {ps : List Place}
    (hps : ∀ q ∈ ps, q.isRemark = true) (b : β) : ps.foldl f b = b := by
  induction ps with
  | nil => rfl
  | cons q ps ih =>
    rw [List.foldl_cons, hf b q (hps q List.mem_cons_self)]
    exact ih fun r hr => hps r (List.mem_cons_of_mem _ hr)

theorem walk_of_remarks {p : Place} (hp : p.children.all Place.isRemark = true) (unit levels : Nat)
    (imports : Imports) (around : Around) (s : Indexing) :
    Indexing.walk u unit imports levels around p s = s := by
  have hrole : ∀ role, p.child? role = none := by
    intro role
    refine List.find?_eq_none.mpr fun q hq hq' => ?_
    rw [role_of_isRemark (List.all_eq_true.mp hp q hq)] at hq'
    cases hq'
  have hchildren : ∀ levels around, Indexing.walkAll (Indexing.walk u unit imports levels) around
      p.namedChildren s = s := fun levels around =>
    foldl_of_remarks (fun s q hq => Indexing.walk_of_isRemark hq unit levels around s)
      (fun q hq => List.all_eq_true.mp hp q (mem_children_of_mem_namedChildren hq)) s
  cases levels with
  | zero => rfl
  | succ levels =>
    have hparts := Construct.partsOf_of p
    have hform := Construct.formOf_of p
    rw [Indexing.walk, Indexing.step]
    cases hof : Construct.of p <;> rw [hof] at hparts hform
    case typeDecl => cases (hrole _).symm.trans hparts.2.1
    case objectCreation => cases (hrole _).symm.trans hform
    case enumConstant => cases (hrole _).symm.trans hparts.2.1
    all_goals exact hchildren levels _

include h

theorem addUnit_of_remarks (ix : Index) :
    ix.addUnit u = { ix with imports := ix.imports.push {}, declared := ix.declared.push ∅ } := by
  have himports : u.imports = {} := by
    refine foldl_of_remarks (fun imports q hq => ?_)
      (fun q hq => List.all_eq_true.mp h q (mem_children_of_mem_namedChildren hq)) _
    rw [SourceUnit.addHeader, construct_of_isRemark hq]
  rw [Index.addUnit_eq_walk, himports, walk_of_remarks h]

theorem namePlaces_of_remarks : Symbols.namePlaces u = [u.top].filter (·.node.isName) := by
  have hnone : (u.top.children.flatMap below).filter (·.node.isName) = [] := by
    refine List.filter_eq_nil_iff.mpr fun q hq => ?_
    obtain ⟨r, hr, hq⟩ := List.mem_flatMap.mp hq
    have hremark := List.all_eq_true.mp h r hr
    rw [below_eq_cons, children_of_isRemark hremark, List.flatMap_nil, List.mem_singleton] at hq
    have hname : q.node.isName = false := hq ▸ Bool.or_eq_false_iff.mpr
      ⟨kind_ne_of_isRemark hremark rfl, kind_ne_of_isRemark hremark rfl⟩
    simp [hname]
  have hbelow : u.root.places = u.top :: u.top.children.flatMap below := below_eq_cons u.top
  rw [Symbols.namePlaces, hbelow, List.filter_cons, hnone, List.filter_cons, List.filter_nil]

theorem traverse_of_remarks (hc : c.unit = u) : traverse c = ({} : Binder).closeScope 0 := by
  subst hc
  have hchildren : ∀ q ∈ c.unit.top.namedChildren, q.isRemark = true := fun q hq =>
    List.all_eq_true.mp h q (mem_children_of_mem_namedChildren hq)
  have htypes : c.unit.top.namedChildren.flatMap (typeSteps c) = [] := by
    refine List.flatMap_eq_nil_iff.mpr fun q hq => ?_
    rw [typeSteps, construct_of_isRemark (hchildren q hq)]
  have hvisits : ∀ ps : List Place, (∀ q ∈ ps, q.isRemark = true) →
      Step.runAll c (visit c c.unit.root.height) (ps.map .visit) {} = {} := by
    intro ps hps
    induction ps with
    | nil => simp
    | cons q ps ih =>
      obtain ⟨hself, hrest⟩ := List.forall_mem_cons.mp hps
      simp [visit_of_isRemark hself, ih hrest]
  rw [Binder.traverse, walked, unitSteps, htypes, List.nil_append, childSteps,
    hvisits _ hchildren]

end Remarks

/-! ## Units without comments -/

theorem isRemark_of_children_nil {u : SourceUnit} (h : u.root.children = []) :
    u.isRemark = true := by
  have hchildren : u.top.children = [] := congrArg (List.map _) h
  rw [SourceUnit.isRemark, hchildren]
  rfl

theorem addUnit_uncommented (u : SourceUnit) (ix : Index) :
    ix.addUnit u.uncommented = ix.addUnit u := by
  unfold SourceUnit.uncommented
  split
  · next h => rw [addUnit_of_remarks h, addUnit_of_remarks (isRemark_of_children_nil rfl)]
  · exact (respelling_bare u).addUnit ix

theorem build_uncommented (units : List SourceUnit) :
    Index.build (units.map SourceUnit.uncommented) = Index.build units := by
  rw [Index.build, Index.build, List.foldl_map]
  simp only [addUnit_uncommented]

/-- The names stay where they are. -/
theorem namePlaces_uncommented (u : SourceUnit) :
    (Symbols.namePlaces u.uncommented).map (fun p => (p.number, u.uncommented.text p))
      = (Symbols.namePlaces u).map fun p => (p.number, u.text p) := by
  unfold SourceUnit.uncommented
  split
  · next h =>
      rw [namePlaces_of_remarks h, namePlaces_of_remarks (isRemark_of_children_nil rfl)]
      obtain ⟨path, source, ⟨label, children⟩⟩ := u
      simp only [List.filter_cons, List.filter_nil, apply_ite (List.map _), List.map_cons,
        List.map_nil]
      rfl
  · rw [(respelling_bare u).namePlaces, List.map_map]
    refine List.map_congr_left fun p _ => ?_
    rw [Function.comp_apply, redrawing_bare.number, u.text_bare]

theorem traverse_uncommented (hnumbers : (c.unit.root.places.map Place.number).Nodup) :
    traverse (c.withUnit c.unit.uncommented) = traverse c := by
  unfold SourceUnit.uncommented
  split
  · next h =>
      rw [traverse_of_remarks h rfl, traverse_of_remarks (isRemark_of_children_nil rfl) rfl]
  · exact (rebinding_bare hnumbers).traverse

/-- Comments that are not read do not change what the names mean. Without them each unit has the
same names, and each is found as before; and a unit where no comment is read is then one without
comments. -/
theorem names_without_comments {units : List SourceUnit}
    (hnumbers : ∀ u ∈ units, (u.root.places.map Place.number).Nodup) (d : Dictionary)
    (policy : NamingPolicy) {number : Nat} {u : SourceUnit} (hu : units[number]? = some u) :
    ∃ a b, (analyze d policy units)[number]? = some a
      ∧ (analyze d policy (units.map SourceUnit.uncommented))[number]? = some b
      ∧ a.unit = u ∧ b.unit = u.uncommented
      ∧ (u.commentsAside = true → b.unit = u.withoutComments)
      ∧ (Symbols.namePlaces b.unit).map (fun p => (p.number, b.unit.text p))
          = (Symbols.namePlaces u).map (fun p => (p.number, u.text p))
      ∧ ∀ p ∈ Symbols.namePlaces u, ∀ q ∈ Symbols.namePlaces b.unit, q.number = p.number →
          b.symbols.resolution? q = a.symbols.resolution? p
            ∧ b.symbols.keyOf? q = a.symbols.keyOf? p := by
  have hsymbols := ofUnit_congr
    (traverse_uncommented (c := ⟨u, number, Index.build units⟩)
      (hnumbers u (List.mem_of_getElem? hu)))
    (namePlaces_uncommented u) d policy
  refine ⟨⟨u, Symbols.ofUnit d policy ⟨u, number, Index.build units⟩⟩,
    ⟨u.uncommented, Symbols.ofUnit d policy ⟨u.uncommented, number, Index.build units⟩⟩, ?_, ?_,
    rfl, rfl, fun haside => (SourceUnit.withoutComments_eq_uncommented haside).symm,
    namePlaces_uncommented u, fun p _ q _ hpq => ?_⟩
  · rw [getElem?_analyze, hu, Option.map_some]
  · rw [getElem?_analyze, List.getElem?_map, hu, Option.map_some, Option.map_some,
      build_uncommented]
  have hresolution : ∀ t : Symbols, t.resolution? q = t.resolution? p := fun t => by
    rw [Symbols.resolution?, Symbols.resolution?, hpq]
  have hkey : ∀ t : Symbols, t.keyOf? q = t.keyOf? p := fun t => by
    rw [Symbols.keyOf?, Symbols.keyOf?, hresolution]
  exact ⟨(hresolution _).trans (congrArg (·.resolution? p) hsymbols),
    (hkey _).trans (congrArg (·.keyOf? p) hsymbols)⟩

namespace Sample

/-- A class with a comment before its fields. -/
def commented : SourceUnit where
  path := "A.java"
  source := "class A\x7b/*c*/int x;int y=x;\x7d"
  root :=
    node 0 "program" 0 28 none [
     node 1 "class_declaration" 0 28 none [mark 2 "class" 0 5, name 3 6 7 "name",
      node 4 "class_body" 7 28 (some "body") [mark 5 "\x7b" 7 8,
       node 6 "block_comment" 8 13 none [],
       node 7 "field_declaration" 13 19 none [
        node 8 "integral_type" 13 16 (some "type") [mark 9 "int" 13 16],
        node 10 "variable_declarator" 17 18 (some "declarator") [name 11 17 18 "name"],
        mark 12 ";" 18 19],
       node 13 "field_declaration" 19 27 none [
        node 14 "integral_type" 19 22 (some "type") [mark 15 "int" 19 22],
        node 16 "variable_declarator" 23 26 (some "declarator") [name 17 23 24 "name",
         mark 18 "=" 24 25, name 19 25 26 "value"], mark 20 ";" 26 27], mark 21 "\x7d" 27 28]]]

/-- A class that calls its method with a comment before the argument. -/
def remarked : SourceUnit where
  path := "A.java"
  source := "class A\x7bvoid f(int a)\x7b\x7dvoid g()\x7bf(/*c*/1);\x7d\x7d"
  root :=
    node 0 "program" 0 44 none [
     node 1 "class_declaration" 0 44 none [mark 2 "class" 0 5, name 3 6 7 "name",
      node 4 "class_body" 7 44 (some "body") [mark 5 "\x7b" 7 8,
       node 6 "method_declaration" 8 23 none [node 7 "void_type" 8 12 (some "type") [],
        name 8 13 14 "name",
        node 9 "formal_parameters" 14 21 (some "parameters") [mark 10 "(" 14 15,
         node 11 "formal_parameter" 15 20 none [
          node 12 "integral_type" 15 18 (some "type") [mark 13 "int" 15 18], name 14 19 20 "name"],
         mark 15 ")" 20 21],
        node 16 "block" 21 23 (some "body") [mark 17 "\x7b" 21 22, mark 18 "\x7d" 22 23]],
       node 19 "method_declaration" 23 43 none [node 20 "void_type" 23 27 (some "type") [],
        name 21 28 29 "name",
        node 22 "formal_parameters" 29 31 (some "parameters") [mark 23 "(" 29 30,
         mark 24 ")" 30 31],
        node 25 "block" 31 43 (some "body") [mark 26 "\x7b" 31 32,
         node 27 "expression_statement" 32 42 none [
          node 28 "method_invocation" 32 41 none [name 29 32 33 "name",
           node 30 "argument_list" 33 41 (some "arguments") [mark 31 "(" 33 34,
            node 32 "block_comment" 34 39 none [], node 33 "decimal_integer_literal" 39 40 none [],
            mark 34 ")" 40 41]], mark 35 ";" 41 42], mark 36 "\x7d" 42 43]], mark 37 "\x7d" 43 44]]]

end Sample

theorem names_without_comments_commented :
    let units := [Sample.commented]
    (∀ u ∈ units, (u.root.places.map Place.number).Nodup)
      ∧ (∃ p ∈ Sample.commented.root.places, p.isRemark = true)
      ∧ ∃ b, (analyze .empty .preserve (units.map SourceUnit.uncommented))[0]? = some b
        ∧ b.unit = Sample.commented.withoutComments
        ∧ ∃ q ∈ Symbols.namePlaces b.unit,
            q.number = 19 ∧ b.symbols.keyOf? q = some ("A.x", .valid) := by
  intro units
  have hnumbers : ∀ u ∈ units, (u.root.places.map Place.number).Nodup := by decide +kernel
  have haside : Sample.commented.commentsAside = true := by decide +kernel
  have hkey : ∃ p ∈ Symbols.namePlaces Sample.commented, p.number = 19 ∧
      (Symbols.ofUnit .empty .preserve ⟨Sample.commented, 0, Index.build units⟩).keyOf? p
        = some ("A.x", .valid) := by
    decide +kernel
  obtain ⟨a, b, ha, hb, -, -, hwithout, hnames, hsame⟩ :=
    names_without_comments hnumbers .empty .preserve
      (show units[0]? = some Sample.commented from rfl)
  obtain ⟨p, hp, hnumber, hkey⟩ := hkey
  obtain ⟨q, hq, hqp⟩ := List.mem_map.mp (hnames ▸ List.mem_map_of_mem hp)
  rw [getElem?_analyze] at ha
  obtain rfl := Option.some.inj ha
  have hqp := congrArg Prod.fst hqp
  exact ⟨hnumbers, by decide +kernel, b, hb, hwithout haside, q, hq, hqp.trans hnumber,
    (hsame p hp q hq hqp).2.trans hkey⟩

/-- A comment among the arguments of a call counts as one of them, so the call is found without
the comment only. -/
theorem call_with_comment_missing :
    let keyAt (u : SourceUnit) (number : Nat) :=
      ((analyze .empty .preserve [u])[0]?.bind fun a =>
        ((Symbols.namePlaces a.unit).find? (·.number = number)).bind a.symbols.keyOf?)
    keyAt Sample.remarked 29 = some ("A.f(?,?)", .missing)
      ∧ keyAt Sample.remarked.withoutComments 29 = some ("A.f(int)", .valid) := by
  decide +kernel

end Legible
