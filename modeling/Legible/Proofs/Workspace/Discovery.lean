import Mathlib.Data.List.Lex
import Mathlib.Data.Prod.Lex
import Mathlib.Data.String.Basic
import Legible.Workspace.Discover

/-!
# Files are discovered once

The order of paths is the lexicographic one on their components (`precedes_iff`), so a path that is
put into an ordered list meets the same path if it is there, and no path is discovered twice
(`nodup_sorted`).
-/

namespace Legible.Path

/-! ## The order of paths -/

/-- What decides the order of components. -/
def Component.key (c : Component) : ℕ ×ₗ String := toLex c.rank

theorem Component.key_injective : Function.Injective Component.key := by
  intro a b h
  cases a <;> cases b <;> simp_all [key, rank]

theorem Component.precedes_iff (a b : Component) : a.precedes b = true ↔ a.key < b.key := by
  rw [key, key, Prod.Lex.toLex_lt_toLex]
  simp [precedes]

/-- What decides the order of paths. -/
def key (path : String) : List (ℕ ×ₗ String) := (components path).map Component.key

theorem componentsPrecede_iff (as bs : List Component) :
    componentsPrecede as bs = true ↔ as.map Component.key < bs.map Component.key := by
  induction as generalizing bs with
  | nil => cases bs <;> simp [componentsPrecede]
  | cons a as ih =>
    cases bs with
    | nil => simp [componentsPrecede]
    | cons b bs =>
      rw [List.map_cons, List.map_cons, List.cons_lt_cons_iff, ← ih bs,
        Component.key_injective.eq_iff, ← Component.precedes_iff]
      simp [componentsPrecede]

theorem precedes_iff (p q : String) : precedes p q = true ↔ key p < key q :=
  componentsPrecede_iff _ _

theorem same_iff (p q : String) : same p q = true ↔ key p = key q := by
  rw [same, beq_iff_eq, key, key, (List.map_injective_iff.mpr Component.key_injective).eq_iff]

/-! ## Ordered lists -/

variable {p q path : String} {paths : List String}

theorem mem_of_mem_insert (h : q ∈ insert path paths) : q = path ∨ q ∈ paths := by
  induction paths with
  | nil => exact .inl (List.mem_singleton.mp h)
  | cons first rest ih =>
    unfold insert at h
    split at h
    · exact .inr h
    · split at h
      · exact List.mem_cons.mp h
      · rcases List.mem_cons.mp h with rfl | h
        · exact .inr (List.mem_cons_self ..)
        · exact (ih h).imp_right (List.mem_cons_of_mem _)

theorem pairwise_insert (h : paths.Pairwise fun p q => key p < key q) (path : String) :
    (insert path paths).Pairwise fun p q => key p < key q := by
  induction paths with
  | nil => exact List.pairwise_singleton _ _
  | cons first rest ih =>
    obtain ⟨hfirst, hrest⟩ := List.pairwise_cons.mp h
    unfold insert
    split
    · exact h
    · next hsame =>
        split
        · next hprecedes =>
            rw [precedes_iff] at hprecedes
            refine List.pairwise_cons.mpr ⟨fun q hq => ?_, h⟩
            rcases List.mem_cons.mp hq with rfl | hq
            · exact hprecedes
            · exact hprecedes.trans (hfirst q hq)
        · next hprecedes =>
            rw [same_iff] at hsame
            rw [precedes_iff] at hprecedes
            refine List.pairwise_cons.mpr ⟨fun q hq => ?_, ih hrest⟩
            rcases mem_of_mem_insert hq with rfl | hq
            · exact lt_of_le_of_ne (not_lt.mp hprecedes) fun heq => hsame heq.symm
            · exact hfirst q hq

theorem nodup_sorted (paths : List String) : (sorted paths).Nodup := by
  have hordered : ∀ found : List String, found.Pairwise (fun p q => key p < key q) →
      (paths.foldl (fun found path => insert path found) found).Pairwise
        fun p q => key p < key q := by
    induction paths with
    | nil => exact fun _ h => h
    | cons path paths ih => exact fun found h => ih _ (pairwise_insert h path)
  refine (hordered [] .nil).imp fun {p q} hlt heq => ?_
  rw [heq] at hlt
  exact lt_irrefl _ hlt

end Legible.Path
