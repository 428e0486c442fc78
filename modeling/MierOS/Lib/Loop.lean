/-
  MierOS.Lib.Loop
  **LOOPS THAT MAY NOT END**, run for a number of rounds.

  `body s` is one round: the state for the next one, or the result the loop
  leaves with.  `run body fuel s` is `none` when `fuel` rounds are not enough.

  Main results: `Returns`, `Diverges`, `returns_of_wellFounded`,
  `returns_of_measure`, `post_of_returns`, `diverges_of_invariant`, `run_map`,
  `Returns.simulates`.
-/
import Mathlib.Data.Nat.Init

namespace MierOS.Lib.Loop

variable {S R : Type*} {body : S → S ⊕ R}

/-- At most `fuel` rounds from `s`. -/
def run (body : S → S ⊕ R) : Nat → S → Option R
  | 0, _ => none
  | fuel + 1, s =>
      match body s with
      | .inl s' => run body fuel s'
      | .inr r => some r

theorem run_inl {s s' : S} (h : body s = .inl s') (fuel : Nat) :
    run body (fuel + 1) s = run body fuel s' := by
  simp [run, h]

theorem run_inr {s : S} {r : R} (h : body s = .inr r) (fuel : Nat) :
    run body (fuel + 1) s = some r := by
  simp [run, h]

/-- The loop ends, with `r`. -/
def Returns (body : S → S ⊕ R) (s : S) (r : R) : Prop := ∃ fuel, run body fuel s = some r

/-- The loop does not end. -/
def Diverges (body : S → S ⊕ R) (s : S) : Prop := ∀ fuel, run body fuel s = none

theorem Returns.inr {s : S} {r : R} (h : body s = .inr r) : Returns body s r :=
  ⟨1, run_inr h 0⟩

theorem Returns.inl {s s' : S} {r : R} (h : body s = .inl s') (hr : Returns body s' r) :
    Returns body s r := by
  obtain ⟨fuel, hfuel⟩ := hr
  exact ⟨fuel + 1, (run_inl h fuel).trans hfuel⟩

theorem returns_inl_iff {s s' : S} {r : R} (h : body s = .inl s') :
    Returns body s r ↔ Returns body s' r := by
  constructor
  · intro ⟨fuel, hfuel⟩
    cases fuel with
    | zero => exact nomatch hfuel
    | succ fuel => exact ⟨fuel, (run_inl h fuel).symm.trans hfuel⟩
  · exact Returns.inl h

theorem returns_inr_iff {s : S} {r r' : R} (h : body s = .inr r) :
    Returns body s r' ↔ r' = r := by
  constructor
  · intro ⟨fuel, hfuel⟩
    cases fuel with
    | zero => exact nomatch hfuel
    | succ fuel =>
        rw [run_inr h] at hfuel
        exact (Option.some.inj hfuel).symm
  · intro heq
    exact heq ▸ Returns.inr h

/-- **The result is determined.** -/
theorem Returns.unique {s : S} {r r' : R} (h : Returns body s r) (h' : Returns body s r') :
    r = r' := by
  obtain ⟨fuel, hfuel⟩ := h
  induction fuel generalizing s with
  | zero => exact nomatch hfuel
  | succ fuel ih =>
      cases hbody : body s with
      | inl s' =>
          rw [run_inl hbody] at hfuel
          exact ih ((returns_inl_iff hbody).mp h') hfuel
      | inr t =>
          rw [run_inr hbody] at hfuel
          rw [(returns_inr_iff hbody).mp h']
          exact (Option.some.inj hfuel).symm

theorem Returns.not_diverges {s : S} {r : R} (h : Returns body s r) : ¬ Diverges body s := by
  obtain ⟨fuel, hfuel⟩ := h
  intro hdiv
  rw [hdiv fuel] at hfuel
  exact nomatch hfuel

/-- Rounds to spare change nothing. -/
theorem run_mono {fuel fuel' : Nat} (hle : fuel ≤ fuel') {s : S} {r : R}
    (h : run body fuel s = some r) : run body fuel' s = some r := by
  induction fuel generalizing fuel' s with
  | zero => exact nomatch h
  | succ fuel ih =>
      obtain ⟨fuel', rfl⟩ := Nat.exists_eq_succ_of_ne_zero (show fuel' ≠ 0 by omega)
      cases hbody : body s with
      | inl s' =>
          rw [run_inl hbody] at h ⊢
          exact ih (by omega) h
      | inr r' =>
          rw [run_inr hbody] at h ⊢
          exact h

/-- **A loop ends** when every round that goes on keeps the invariant and lowers
the rank; its result is as the leaving round says. -/
theorem returns_of_wellFounded {M : Type*} {lt : M → M → Prop} (hwf : WellFounded lt)
    (I : S → Prop) (rank : S → M) (Post : R → Prop)
    (hround : ∀ s, I s → (∃ s', body s = .inl s' ∧ I s' ∧ lt (rank s') (rank s)) ∨
      ∃ r, body s = .inr r ∧ Post r) {s : S} (hs : I s) :
    ∃ r, Returns body s r ∧ Post r := by
  induction hn : rank s using hwf.induction generalizing s with
  | _ n ih =>
      rcases hround s hs with ⟨s', hbody, hs', hlt⟩ | ⟨r, hbody, hpost⟩
      · obtain ⟨r, hr, hpost⟩ := ih (rank s') (hn ▸ hlt) hs' rfl
        exact ⟨r, hr.inl hbody, hpost⟩
      · exact ⟨r, Returns.inr hbody, hpost⟩

/-- The rule with a number as the rank. -/
theorem returns_of_measure (I : S → Prop) (μ : S → Nat) (Post : R → Prop)
    (hround : ∀ s, I s → (∃ s', body s = .inl s' ∧ I s' ∧ μ s' < μ s) ∨
      ∃ r, body s = .inr r ∧ Post r) {s : S} (hs : I s) :
    ∃ r, Returns body s r ∧ Post r :=
  returns_of_wellFounded Nat.lt_wfRel.wf I μ Post hround hs

/-- **What holds of the result**, whether or not there is one. -/
theorem post_of_returns (I : S → Prop) (Post : R → Prop)
    (hinl : ∀ s s', I s → body s = .inl s' → I s')
    (hinr : ∀ s r, I s → body s = .inr r → Post r) {s : S} {r : R} (hs : I s)
    (h : Returns body s r) : Post r := by
  obtain ⟨fuel, hfuel⟩ := h
  induction fuel generalizing s with
  | zero => exact nomatch hfuel
  | succ fuel ih =>
      cases hbody : body s with
      | inl s' =>
          rw [run_inl hbody] at hfuel
          exact ih (hinl s s' hs hbody) hfuel
      | inr t =>
          rw [run_inr hbody] at hfuel
          exact Option.some.inj hfuel ▸ hinr s t hs hbody

/-- **A loop that never leaves.** -/
theorem diverges_of_invariant (I : S → Prop) (hround : ∀ s, I s → ∃ s', body s = .inl s' ∧ I s')
    {s : S} (hs : I s) : Diverges body s := by
  intro fuel
  induction fuel generalizing s with
  | zero => rfl
  | succ fuel ih =>
      obtain ⟨s', hbody, hs'⟩ := hround s hs
      rw [run_inl hbody]
      exact ih hs'

/-- A round on the way to a loop that never leaves. -/
theorem Diverges.inl {s s' : S} (h : body s = .inl s') (hs' : Diverges body s') :
    Diverges body s := by
  intro fuel
  cases fuel with
  | zero => rfl
  | succ fuel => exact (run_inl h fuel).trans (hs' fuel)

/-- **Simulation**: rounds that correspond make loops that do. -/
theorem run_map {S' R' : Type*} {body' : S' → S' ⊕ R'} (f : S → S') (g : R → R')
    (h : ∀ s, body' (f s) = (body s).map f g) (fuel : Nat) (s : S) :
    run body' fuel (f s) = (run body fuel s).map g := by
  induction fuel generalizing s with
  | zero => rfl
  | succ fuel ih =>
      cases hbody : body s with
      | inl s' =>
          have hbody' : body' (f s) = .inl (f s') := by rw [h, hbody]; rfl
          rw [run_inl hbody, run_inl hbody']
          exact ih s'
      | inr r =>
          have hbody' : body' (f s) = .inr (g r) := by rw [h, hbody]; rfl
          rw [run_inr hbody, run_inr hbody']
          rfl

/-- **Simulation along a relation**: rounds from related states both go on to
related states, or both leave with related results. -/
theorem Returns.simulates {S' R' : Type*} {body' : S' → S' ⊕ R'} (Rel : S → S' → Prop)
    (Out : R → R' → Prop)
    (hround : ∀ s s', Rel s s' → (∃ t t', body s = .inl t ∧ body' s' = .inl t' ∧ Rel t t') ∨
      ∃ r r', body s = .inr r ∧ body' s' = .inr r' ∧ Out r r')
    {s : S} {s' : S'} {r : R} (h : Returns body s r) (hrel : Rel s s') :
    ∃ r', Returns body' s' r' ∧ Out r r' := by
  obtain ⟨fuel, hfuel⟩ := h
  induction fuel generalizing s s' with
  | zero => exact nomatch hfuel
  | succ fuel ih =>
      rcases hround s s' hrel with ⟨t, t', hbody, hbody', hrel'⟩ | ⟨q, q', hbody, hbody', hout⟩
      · rw [run_inl hbody] at hfuel
        obtain ⟨r', hr', hout⟩ := ih hrel' hfuel
        exact ⟨r', hr'.inl hbody', hout⟩
      · rw [run_inr hbody] at hfuel
        exact ⟨q', Returns.inr hbody', Option.some.inj hfuel ▸ hout⟩

end MierOS.Lib.Loop
