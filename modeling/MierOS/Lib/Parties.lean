/-
  MierOS.Lib.Parties
  **ONE PARTY OF MANY MOVES.**

  The state of a system of threads or processes is a family `f : ι → α`, one
  entry for each party, and a step is `Function.update f i x`: party `i` is `x`
  afterwards and everybody else is as before.

  Main results: `update_cases`, `sum_update`.
-/
import Mathlib.Algebra.BigOperators.Group.Finset.Piecewise
import Mathlib.Data.Fintype.Basic
import Mathlib.Tactic.Abel

namespace MierOS.Lib.Parties

variable {ι α : Type*} [DecidableEq ι]

/-- The party that moved, and everybody else. -/
theorem update_cases {f g : ι → α} {i : ι} {x : α} (hg : g = Function.update f i x) :
    g i = x ∧ ∀ j, j ≠ i → g j = f j := by
  constructor
  · rw [hg, Function.update_self]
  · intro j hj
    rw [hg, Function.update_of_ne hj]

/-- **A total after one party moved.** -/
theorem sum_update [Fintype ι] {G : Type*} [AddCommGroup G] (value : α → G) {f g : ι → α} {i : ι}
    {x : α} (hg : g = Function.update f i x) :
    ∑ j, value (g j) = ∑ j, value (f j) + (value x - value (f i)) := by
  have hcomp : (fun j => value (g j)) = Function.update (fun j => value (f j)) i (value x) := by
    funext j
    rw [hg]
    exact Function.apply_update (fun _ => value) f i x j
  -- what the others bring in stays as it is
  have hold : ∑ j, value (f j) = value (f i) + ∑ j ∈ Finset.univ \ {i}, value (f j) := by
    have h := Finset.sum_update_of_mem (Finset.mem_univ i) (fun j => value (f j)) (value (f i))
    rw [Function.update_eq_self] at h
    exact h
  rw [hcomp, Finset.sum_update_of_mem (Finset.mem_univ i), hold]
  abel

end MierOS.Lib.Parties
