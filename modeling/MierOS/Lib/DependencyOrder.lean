/-
  MierOS.Lib.DependencyOrder
  **LISTS IN DEPENDENCY ORDER**, for a relation `dep a d` read "`a` depends on `d`".

  Main results: `DependencyOrder`, `DependencyOrder.concat`,
  `DependencyOrder.transGen`, `wellFounded_of_acyclic`.
-/
import MierOS.Lib.Run
import Mathlib.Data.Fintype.Card
import Mathlib.Data.List.Infix
import Mathlib.Data.Set.Finite.Basic
import Mathlib.Logic.Relation

namespace MierOS.Lib

open Relation

variable {α : Type*} {dep : α → α → Prop} {l : List α} {a d : α}

/-- Every element stands behind all that it depends on. -/
def DependencyOrder (dep : α → α → Prop) (l : List α) : Prop :=
  ∀ pre a post, l = pre ++ a :: post → ∀ d, dep a d → d ∈ pre

theorem DependencyOrder.nil : DependencyOrder dep [] :=
  atEach_nil _

theorem DependencyOrder.concat (h : DependencyOrder dep l) (ha : ∀ d, dep a d → d ∈ l) :
    DependencyOrder dep (l ++ [a]) :=
  atEach_concat_iff.mpr ⟨h, ha⟩

theorem DependencyOrder.closed (h : DependencyOrder dep l) (ha : a ∈ l) (hd : dep a d) :
    d ∈ l := by
  obtain ⟨pre, post, rfl⟩ := List.append_of_mem ha
  exact List.mem_append_left _ (h pre a post rfl d hd)

theorem DependencyOrder.reflTransGen_mem (h : DependencyOrder dep l) (ha : a ∈ l)
    (hd : ReflTransGen dep a d) : d ∈ l := by
  induction hd with
  | refl => exact ha
  | tail _ hstep ih => exact h.closed ih hstep

/-- **What an element depends on indirectly stands in front of it as well.** -/
theorem DependencyOrder.transGen (h : DependencyOrder dep l) {pre post : List α}
    (hl : l = pre ++ a :: post) (hd : TransGen dep a d) : d ∈ pre := by
  have hpre : DependencyOrder dep pre := by
    intro pre' b post' heq d hb
    refine h pre' b (post' ++ a :: post) ?_ d hb
    rw [hl, heq, List.append_assoc, List.cons_append]
  obtain ⟨b, hab, hbd⟩ := TransGen.head'_iff.mp hd
  exact hpre.reflTransGen_mem (h pre a post hl b hab) hbd

/-- **No cycles and finitely many dependents**: recursion into dependencies ends. -/
theorem wellFounded_of_acyclic (keys : List α) (hkeys : ∀ a d, dep a d → a ∈ keys)
    (hacyclic : ∀ a, ¬ TransGen dep a a) : WellFounded fun d a => dep a d := by
  have hfinite : Finite {a // a ∈ keys} := List.finite_toSet keys
  let below : {a // a ∈ keys} → {a // a ∈ keys} → Prop := fun d a => TransGen dep a.1 d.1
  have htrans : IsTrans _ below := ⟨fun _ _ _ hab hbc => hbc.trans hab⟩
  have hirrefl : Std.Irrefl below := ⟨fun a => hacyclic a.1⟩
  have hwf : WellFounded below := Finite.wellFounded_of_trans_of_irrefl below
  have hout : ∀ a, a ∉ keys → Acc (fun d a => dep a d) a :=
    fun a ha => Acc.intro a fun d hd => absurd (hkeys a d hd) ha
  refine ⟨fun a => ?_⟩
  by_cases ha : a ∈ keys
  · refine hwf.induction (C := fun a => Acc (fun d a => dep a d) a.1) ⟨a, ha⟩ fun x ih => ?_
    refine Acc.intro _ fun d hd => ?_
    by_cases hmem : d ∈ keys
    · exact ih ⟨d, hmem⟩ (TransGen.single hd)
    · exact hout d hmem
  · exact hout a ha

end MierOS.Lib
