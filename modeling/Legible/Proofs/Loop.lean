import Mathlib.Data.PFun

/-!
# Loops without a bound

A loop goes from state to state until it has a result. `loop step s` is the result of the loop from
`s` on, if it ever stops: `r ∈ loop step s` says that it does, and with the result `r`.
-/

namespace Legible

variable {σ ρ : Type} {step : σ → ρ ⊕ σ} {s s' : σ} {r : ρ}

/-- What going on from a state as `step` says leads to. -/
def loop (step : σ → ρ ⊕ σ) : σ →. ρ := (PFun.lift step).fix

theorem mem_loop_of_stop (h : step s = .inl r) : r ∈ loop step s :=
  PFun.fix_stop (Part.mem_some_iff.mpr h.symm)

theorem mem_loop_of_next (h : step s = .inr s') (h' : r ∈ loop step s') : r ∈ loop step s :=
  PFun.mem_fix_iff.mpr (.inr ⟨s', Part.mem_some_iff.mpr h.symm, h'⟩)

theorem mem_loop_of_step_eq (h : step s = step s') (h' : r ∈ loop step s') : r ∈ loop step s := by
  rw [loop, PFun.mem_fix_iff] at h' ⊢
  rwa [PFun.lift, h]

/-- A loop that ends does so at some state. -/
theorem exists_stop_of_mem_loop (h : r ∈ loop step s) : ∃ s', step s' = .inl r :=
  PFun.fixInduction' (C := fun _ => ∃ s', step s' = .inl r) h
    (fun s' hs' => ⟨s', (Part.mem_some_iff.mp hs').symm⟩) fun _ _ _ _ ih => ih

end Legible
