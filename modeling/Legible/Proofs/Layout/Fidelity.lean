import Legible.Analysis
import Legible.Proofs.Binding.Names
import Legible.Proofs.Layout.Content

/-!
# Fixing changes layout and renamed names only

What a rendering shows, layout aside, are the texts of the token places in source order, where a
name has its replacement if there is one. Without names in the dictionary, and with the policy that
keeps names, nothing has a replacement: then a rendering shows what the source shows.
-/

namespace Legible

open Layout

variable {units : List SourceUnit}

theorem Dictionary.lookup?_empty (key : String) : Dictionary.empty.lookup? key = none := rfl

namespace Symbols

theorem replacement?_empty (c : BindingInput) (p : Place) :
    (ofUnit .empty .preserve c).replacement? .empty p = none := by
  unfold replacement?
  split
  · next id _ =>
      rw [symbol?_ofUnit_preserve]
      cases hs : (found c).symbol? id with
      | none => rfl
      | some s =>
        have hnone := chosenName_found hs
        simp [nameByDictionary, Dictionary.lookup?_empty, Symbol.isRenamed, hnone]
  · exact Dictionary.lookup?_empty _
  · rfl

end Symbols

/-- What the names of each unit are bound in. -/
def inputs (units : List SourceUnit) : List BindingInput :=
  units.zipIdx.map fun (unit, number) => { unit, number, index := Index.build units }

theorem mem_inputs {c : BindingInput} (h : c ∈ inputs units) :
    units[c.number]? = some c.unit ∧ c.index = Index.build units := by
  obtain ⟨⟨unit, number⟩, hmem, rfl⟩ := List.mem_map.mp h
  exact ⟨List.mem_zipIdx_iff_getElem?.mp hmem, rfl⟩

theorem map_unit_inputs (units : List SourceUnit) :
    (inputs units).map BindingInput.unit = units := by
  rw [inputs, List.map_map]
  exact List.zipIdx_map_fst 0 units

theorem analyze_eq_map (d : Dictionary) (policy : NamingPolicy) (units : List SourceUnit) :
    analyze d policy units
      = (inputs units).map fun c => { unit := c.unit, symbols := Symbols.ofUnit d policy c } := by
  rw [inputs, List.map_map]
  rfl

theorem mem_analyze {d : Dictionary} {policy : NamingPolicy} {a : AnalyzedUnit} :
    a ∈ analyze d policy units
      ↔ ∃ c ∈ inputs units, { unit := c.unit, symbols := Symbols.ofUnit d policy c } = a := by
  rw [analyze_eq_map, List.mem_map]

/-- A rendering shows the token places as written, with the replacements of names. -/
theorem visible_render_analyze {units : List SourceUnit} {d : Dictionary} {policy : NamingPolicy}
    {a : AnalyzedUnit} (ha : a ∈ analyze d policy units) (htiled : a.unit.tiledOK = true)
    (ending : LineEnding) :
    visible (render a.unit a.symbols d ending).toList
        = ((tokenPlaces a.unit.root).flatMap fun p =>
            visible (if p.node.isName then (a.symbols.replacement? d p).getD (a.unit.text p)
              else a.unit.text p).toList)
      ∧ (d = .empty → policy = .preserve →
        (∀ p, a.symbols.replacement? d p = none)
          ∧ visible (render a.unit a.symbols d ending).toList = visible a.unit.source.toList) := by
  have hshown := visible_render htiled a.symbols d ending
  refine ⟨hshown, ?_⟩
  rintro rfl rfl
  obtain ⟨c, -, rfl⟩ := mem_analyze.mp ha
  have hnone : ∀ p, (Symbols.ofUnit .empty .preserve c).replacement? .empty p = none :=
    Symbols.replacement?_empty c
  refine ⟨hnone, ?_⟩
  have hwritten : ∀ p, writtenText c.unit (Symbols.ofUnit .empty .preserve c) .empty p
      = c.unit.text p := by
    intro p
    rw [writtenText, hnone p]
    exact ite_self _
  rw [hshown, ← flatMap_visible_eq htiled]
  simp only [hwritten]

/-- The class and its field get names from a dictionary; without one the text stays. -/
theorem visible_render_analyze_box :
    let d := (Dictionary.empty.record "Box" (some "Case")).record "Box.v" (some "w")
    let shown := fun a d => visible (render a.unit a.symbols d .crlf).toList
    Sample.box.tiledOK = true
      ∧ (∀ a ∈ analyze d .preserve [Sample.box],
        shown a d = "classCase\x7bintw;Case(intp)\x7bw=p;\x7d\x7d".toList
          ∧ shown a d = (tokenPlaces a.unit.root).flatMap fun p =>
            visible (if p.node.isName then (a.symbols.replacement? d p).getD (a.unit.text p)
              else a.unit.text p).toList)
      ∧ ∀ a ∈ analyze .empty .preserve [Sample.box],
        shown a .empty = visible Sample.box.source.toList := by
  intro d shown
  have htiled : Sample.box.tiledOK = true := by decide +kernel
  refine ⟨htiled, ?_, ?_⟩
  · intro a ha
    have hunit : a = { unit := Sample.box, symbols := _ } := List.mem_singleton.mp ha
    refine ⟨?_, (visible_render_analyze ha (by rw [hunit]; exact htiled) .crlf).1⟩
    rw [hunit]
    decide +kernel
  · intro a ha
    have hunit : a = { unit := Sample.box, symbols := _ } := List.mem_singleton.mp ha
    have hshown := ((visible_render_analyze ha (by rw [hunit]; exact htiled) .crlf).2 rfl rfl).2
    rw [hunit] at hshown ⊢
    exact hshown

end Legible
