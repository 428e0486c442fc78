/-
  MierOS.Tasking.OptimalThread
  **THE THREAD `get_optimal_thread` PICKS** (`thread_queue.hpp`).

  One pass over the links with a provisional best thread.  The scan replaces it
  at most once, by the first thread without a preference, and stops at the first
  thread that prefers the core.  What it removes from the links is the subject
  of `ThreadQueue`; here it is which thread it returns.

  Main results: `choice`, `getOptimalThread_choice`,
  `get_optimal_thread_policy`.
-/
import MierOS.Tasking.ThreadQueue

namespace MierOS.Tasking.Scheduling

open Lib Lib.Links
open ThreadQueue (getOptimalThread takeBest)

/-! ## §1. The order of precedence. -/

/-- The first thread of the queue with this preferred core. -/
def firstPreferring (k : Kernel) (queue : List ThreadPtr) (core : Int) : Option ThreadPtr :=
  queue.find? (fun t => k.preferred t = core)

/-- **The policy**: the first thread that prefers the core, else the first
without a preferred core, else the first thread, and null for an empty queue. -/
def choice (k : Kernel) (queue : List ThreadPtr) (core : Int) : ThreadPtr :=
  (firstPreferring k queue core).getD
    ((firstPreferring k queue (-1)).getD (queue.headD 0))

section Choice

variable {k : Kernel} {queue a b : List ThreadPtr} {t : ThreadPtr} {core : Int}

theorem firstPreferring_none (hnone : ∀ x ∈ queue, k.preferred x ≠ core) :
    firstPreferring k queue core = none := by
  apply List.find?_eq_none.mpr
  intro x hx
  simpa using hnone x hx

theorem firstPreferring_split (ha : ∀ x ∈ a, k.preferred x ≠ core) (ht : k.preferred t = core) :
    firstPreferring k (a ++ t :: b) core = some t := by
  apply List.find?_eq_some_iff_append.mpr
  refine ⟨decide_eq_true ht, a, b, rfl, ?_⟩
  intro x hx
  simpa using ha x hx

/-- A thread of its own goes before all others. -/
theorem choice_own (ha : ∀ x ∈ a, k.preferred x ≠ core) (ht : k.preferred t = core) :
    choice k (a ++ t :: b) core = t := by
  unfold choice
  rw [firstPreferring_split ha ht]
  rfl

/-- No thread prefers the core: a free thread goes before the others. -/
theorem choice_free (hnone : ∀ x ∈ a ++ t :: b, k.preferred x ≠ core)
    (ha : ∀ x ∈ a, k.preferred x ≠ -1) (ht : k.preferred t = -1) :
    choice k (a ++ t :: b) core = t := by
  unfold choice
  rw [firstPreferring_none hnone, firstPreferring_split ha ht]
  rfl

/-- No thread prefers the core and none is free: the first is stolen. -/
theorem choice_first (hnone : ∀ x ∈ queue, k.preferred x ≠ core)
    (hfree : ∀ x ∈ queue, k.preferred x ≠ -1) : choice k queue core = queue.headD 0 := by
  unfold choice
  rw [firstPreferring_none hnone, firstPreferring_none hfree]
  rfl

/-- The choice is a thread of the queue. -/
theorem choice_mem (core : Int) (hq : queue ≠ []) : choice k queue core ∈ queue := by
  unfold choice
  cases hown : firstPreferring k queue core with
  | some t => exact List.mem_of_find?_eq_some hown
  | none =>
      cases hfree : firstPreferring k queue (-1) with
      | some t => exact List.mem_of_find?_eq_some hfree
      | none =>
          -- the first thread is left
          obtain ⟨t, rest, rfl⟩ := List.exists_cons_of_ne_nil hq
          exact List.mem_cons_self

/-- The scan keeps the first thread where the policy chooses it. -/
theorem choice_keeps {rest : List ThreadPtr} (hkeep : Keeps k core t (t :: rest)) :
    choice k (t :: rest) core = t := by
  rcases hkeep with hown | hothers
  · -- the first thread prefers the core
    exact choice_own (a := []) (fun _ hx => absurd hx List.not_mem_nil) hown
  · have hnone : ∀ x ∈ t :: rest, k.preferred x ≠ core := fun x hx => (hothers x hx).1
    -- it is free, or nothing is and it is stolen
    by_cases ht : k.preferred t = -1
    · exact choice_free (a := []) hnone (fun _ hx => absurd hx List.not_mem_nil) ht
    · exact choice_first hnone fun x hx => (hothers x hx).2.resolve_left ht

end Choice

/-! ## §2. The scan returns the choice. -/

section Scan

variable {k k' : Kernel} {queue : List ThreadPtr} {best t prev : ThreadPtr} {core : Int}
  {fuel : Nat}

/-- Behind the loop one preference is written, that of the best thread. -/
theorem takeBest_preferred (ht : t ≠ 0) :
    (takeBest k core t prev).preferred = Function.update k.preferred t core := by
  unfold takeBest
  simp only [if_pos ht]
  split <;> split <;> simp

/-- The first thread prefers another core, none prefers this one and a free one
is behind it: that one replaces the first, and nothing replaces it. -/
theorem getOptimalThread_free (h : Chain k queue) (hfirst : k.preferred k.first ≠ -1)
    (hnone : ∀ x ∈ queue, k.preferred x ≠ core) (hfree : ∃ x ∈ queue, k.preferred x = -1)
    (hrun : getOptimalThread fuel k core = some (k', best)) :
    best = choice k queue core ∧ k'.preferred = Function.update k.preferred best core := by
  -- the first free thread is where the scan ends up
  obtain ⟨a, t, b, hab, ht, ha⟩ := exists_first hfree
  subst hab
  have h0 : t ≠ 0 :=
    fun h0 => h.nonnull (h0 ▸ List.mem_append_right a List.mem_cons_self)
  have hres := getOptimalThread_of_scan (scan_skewed h hfirst hnone ht ha) hrun
  injection hres with hk hbest
  rw [← hbest, ← hk]
  exact ⟨(choice_free hnone ha ht).symm, takeBest_preferred h0⟩

/-- **The scan returns the choice** from a queue that is not empty, and afterwards
the choice prefers the core. -/
theorem getOptimalThread_choice (h : Chain k queue) (hq : queue ≠ [])
    (hrun : getOptimalThread fuel k core = some (k', best)) :
    best = choice k queue core ∧ k'.preferred = Function.update k.preferred best core := by
  obtain ⟨t, rest, rfl⟩ := List.exists_cons_of_ne_nil hq
  by_cases hsafe : (∃ x ∈ t :: rest, k.preferred x = core) ∨ k.preferred k.first = -1
      ∨ ∀ x ∈ t :: rest, k.preferred x ≠ -1
  · rcases search_cases h hsafe with ⟨hkeep, _⟩ | ⟨a, p, x, b, hqueue, hnone, hx⟩
    · obtain ⟨hbest, _, hpref⟩ := getOptimalThread_first h hkeep hrun
      rw [choice_keeps hkeep, hbest]
      exact ⟨rfl, hpref⟩
    · -- the loop returned from inside: `x` prefers the core already
      rw [hqueue] at h ⊢
      obtain ⟨hbest, _, hpref⟩ := getOptimalThread_preferred h hnone hx hrun
      have hsplit : a ++ p :: x :: b = (a ++ [p]) ++ x :: b := by simp
      rw [hsplit, choice_own hnone hx, hbest, hpref, ← hx]
      exact ⟨rfl, (Function.update_eq_self x k.preferred).symm⟩
  · -- the one order in which the scan replaces the first thread
    push Not at hsafe
    obtain ⟨hnone, hfirst, hfree⟩ := hsafe
    exact getOptimalThread_free h hfirst hnone hfree hrun

end Scan

/-! ## §3. The policy. -/

/-- **`get_optimal_thread(core)`** on a well-formed queue ends; it returns the
thread of the policy, and null exactly when the queue is empty; then that thread
prefers the core, and no other thread's preference has changed. -/
theorem get_optimal_thread_policy {k : Kernel} {queue : List ThreadPtr} (h : Refines k queue)
    (core : Int) :
    (∃ fuel, (getOptimalThread fuel k core).isSome = true)
      ∧ ∀ fuel k' best, getOptimalThread fuel k core = some (k', best) →
        best = choice k queue core ∧ (best = 0 ↔ queue = [])
          ∧ (queue ≠ [] → best ∈ queue ∧ k'.preferred best = core)
          ∧ ∀ t, t ≠ best → k'.preferred t = k.preferred t := by
  refine ⟨⟨queue.length + 1, getOptimalThread_returns h.toChain core⟩, ?_⟩
  intro fuel k' best hrun
  by_cases hq : queue = []
  · -- an empty queue: null, and no preference is written
    subst hq
    obtain ⟨hbest, hk⟩ := getOptimalThread_nil h.toChain hrun
    rw [hbest, hk]
    exact ⟨rfl, ⟨fun _ => rfl, fun _ => rfl⟩, fun hne => absurd rfl hne, fun _ _ => rfl⟩
  · obtain ⟨hbest, hpref⟩ := getOptimalThread_choice h.toChain hq hrun
    have hmem : best ∈ queue := hbest ▸ choice_mem core hq
    refine ⟨hbest, ⟨fun h0 => absurd (h0 ▸ hmem) h.nonnull, fun hnil => absurd hnil hq⟩, ?_, ?_⟩
    · intro _
      rw [hpref]
      exact ⟨hmem, Function.update_self best core k.preferred⟩
    · intro t ht
      rw [hpref]
      exact Function.update_of_ne ht core k.preferred

/-- The first thread prefers core 3 and the second is free: core 0 gets the second. -/
theorem get_optimal_thread_policy_free :
    ∃ k', getOptimalThread 3 (twoQueued 3 (-1)) 0 = some (k', 2)
      ∧ 2 = choice (twoQueued 3 (-1)) [1, 2] 0 ∧ k'.preferred 2 = 0 ∧ k'.preferred 1 = 3 := by
  obtain ⟨_, hall⟩ := get_optimal_thread_policy (twoQueued_refines 3 (-1)) 0
  obtain ⟨hbest, _, hown, hothers⟩ := hall 3 _ 2 rfl
  exact ⟨_, rfl, hbest, (hown (by decide)).2, hothers 1 (by decide)⟩

end MierOS.Tasking.Scheduling
