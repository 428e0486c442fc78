/-
  MierOS.Lib.LoopCycle
  **LOOPS THAT COME BACK**: when a loop whose rounds lead to finitely many states ends.

  Main results: `Next`, `returns_iff_reaches`, `diverges_of_cycle`,
  `returns_iff_noCycle`.
-/
import MierOS.Lib.DependencyOrder
import MierOS.Lib.Loop

namespace MierOS.Lib.Loop

open Relation

variable {S R : Type*} {body : S → S ⊕ R} {s s' x : S} {r : R}

/-- The round from `s` goes on to `s'`. -/
def Next (body : S → S ⊕ R) (s s' : S) : Prop := body s = .inl s'

/-- No state that is met from `s` on is met again. -/
def NoCycle (body : S → S ⊕ R) (s : S) : Prop :=
  ∀ x, ReflTransGen (Next body) s x → ¬ TransGen (Next body) x x

/-- **The result** is what the last state of the chain leaves with. -/
theorem returns_iff_reaches :
    Returns body s r ↔ ∃ x, ReflTransGen (Next body) s x ∧ body x = .inr r := by
  constructor
  · intro ⟨fuel, hfuel⟩
    induction fuel generalizing s with
    | zero => exact nomatch hfuel
    | succ fuel ih =>
        cases hbody : body s with
        | inl s' =>
            rw [run_inl hbody] at hfuel
            obtain ⟨x, hreach, hx⟩ := ih hfuel
            exact ⟨x, ReflTransGen.head hbody hreach, hx⟩
        | inr r' =>
            rw [run_inr hbody] at hfuel
            exact ⟨s, ReflTransGen.refl, hbody.trans (congrArg Sum.inr (Option.some.inj hfuel))⟩
  · intro ⟨x, hreach, hx⟩
    induction hreach using ReflTransGen.head_induction_on with
    | refl => exact Returns.inr hx
    | head hstep _ ih => exact ih.inl hstep

/-- **A chain that leads into a cycle** goes on for ever. -/
theorem diverges_of_cycle (hreach : ReflTransGen (Next body) s x)
    (hcycle : TransGen (Next body) x x) : Diverges body s := by
  apply diverges_of_invariant (fun a => ReflTransGen (Next body) a x) _ hreach
  intro a ha
  -- at `x` itself the cycle begins again
  rcases ha.cases_head with rfl | ⟨b, hab, hb⟩
  · obtain ⟨b, hab, hb⟩ := TransGen.head'_iff.mp hcycle
    exact ⟨b, hab, hb⟩
  · exact ⟨b, hab, hb⟩

/-- **Only a cycle keeps a loop from ending** when its rounds lead to the states
of a list. -/
theorem returns_iff_noCycle (targets : List S) (htargets : ∀ a b, Next body a b → b ∈ targets) :
    (∃ r, Returns body s r) ↔ NoCycle body s := by
  constructor
  · intro ⟨r, hr⟩ x hreach hcycle
    exact hr.not_diverges (diverges_of_cycle hreach hcycle)
  · intro hno
    -- the rounds of this chain alone have no cycle, and start at one of finitely many states
    let onChain : S → S → Prop := fun a b => ReflTransGen (Next body) s a ∧ Next body a b
    have hkeys : ∀ a b, onChain a b → a ∈ s :: targets := by
      intro a b ⟨ha, _⟩
      rcases ha.cases_tail with rfl | ⟨c, _, hca⟩
      · exact List.mem_cons_self
      · exact List.mem_cons_of_mem s (htargets c a hca)
    have hacyclic : ∀ a, ¬ TransGen onChain a a := by
      intro a hcycle
      obtain ⟨b, hab, _⟩ := TransGen.head'_iff.mp hcycle
      have hle : onChain ≤ Next body := fun _ _ h => h.2
      exact hno a hab.1 (TransGen.mono hle a a hcycle)
    have hwf := wellFounded_of_acyclic (s :: targets) hkeys hacyclic
    have hall : ∀ a, ReflTransGen (Next body) s a → ∃ r, Returns body a r := by
      intro a
      induction a using hwf.induction with
      | _ a ih =>
          intro ha
          cases hbody : body a with
          | inl b =>
              obtain ⟨r, hr⟩ := ih b ⟨ha, hbody⟩ (ha.tail hbody)
              exact ⟨r, hr.inl hbody⟩
          | inr r => exact ⟨r, Returns.inr hbody⟩
    exact hall s ReflTransGen.refl

end MierOS.Lib.Loop
