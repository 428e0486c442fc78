/-
  MierOS.Tasking.RunQueue — the run queue as a list of threads.

  `Chain k queue` ties the links to a list.  It allows `last` to be null while
  threads are queued, which `erase` can bring about, but no wrong tail.

  Main results: `Chain.pushBack`, `Chain.erase`, `getOptimalThread_takes`,
  `getOptimalThread_skewed`.
-/
import MierOS.Lib.Links
import MierOS.Tasking.Scheduler

namespace MierOS.Tasking.Scheduling

open Lib Lib.Links
open Function (update update_eq_self update_idem update_of_ne update_self)

/-! ## §1. The queue as a list. -/

/-- The node at position `i` of `runnable_queue`, null past its end. -/
def Kernel.queueAt (k : Kernel) (i : Nat) : ThreadPtr := walk k.next 0 k.first i

/-- `t` is in `runnable_queue`: the links lead to it from `first`. -/
def Kernel.Queued (k : Kernel) (t : ThreadPtr) : Prop := t ≠ 0 ∧ ∃ i, k.queueAt i = t

/-- **The queue holds `queue`**: the links lead through its threads, none of
them twice, to null.  `last` may have been lost, but it never points at the
wrong thread. -/
structure Chain (k : Kernel) (queue : List ThreadPtr) : Prop where
  seg : Seg k.next k.first queue 0
  nonnull : 0 ∉ queue
  nodup : queue.Nodup
  tail : k.last = 0 ∨ queue.getLast? = some k.last

namespace Chain

variable {k k' : Kernel} {queue : List ThreadPtr} {t : ThreadPtr}

theorem queued_iff (h : Chain k queue) : k.Queued t ↔ t ∈ queue :=
  h.seg.reached_iff h.nonnull

theorem queueAt_injective (h : Chain k queue) {i j : Nat} (hij : i ≠ j) (hi : k.queueAt i ≠ 0) :
    k.queueAt i ≠ k.queueAt j :=
  h.seg.walk_injective h.nonnull h.nodup hij hi

/-- Only the links and the two ends matter. -/
theorem of_eq (h : Chain k queue) (hnext : k'.next = k.next) (hfirst : k'.first = k.first)
    (hlast : k'.last = k.last) : Chain k' queue := by
  refine ⟨?_, h.nonnull, h.nodup, ?_⟩
  · rw [hnext, hfirst]
    exact h.seg
  · rw [hlast]
    exact h.tail

/-- A queue without its first thread: where `last` can be. -/
theorem tail_of_cons (h : Chain k (t :: queue)) :
    k.last = 0 ∨ k.last = t ∨ queue.getLast? = some k.last := by
  rcases h.tail with h0 | hlast
  · exact Or.inl h0
  · cases queue with
    | nil =>
        have heq : t = k.last := by simpa using hlast
        exact Or.inr (Or.inl heq.symm)
    | cons x rest =>
        rw [List.getLast?_cons_cons] at hlast
        exact Or.inr (Or.inr hlast)

/-! ### `push_back`. -/

/-- Without a tail the new thread becomes the whole queue. -/
theorem pushBack_noTail (h0 : k.last = 0) (ht : t ≠ 0) :
    Chain (ThreadQueue.pushBack k t) [t] := by
  unfold ThreadQueue.pushBack
  have hif : ¬ (k.setNext t 0).last ≠ 0 := not_not_intro h0
  simp only [if_neg hif]
  refine ⟨⟨rfl, ?_⟩, ?_, List.nodup_singleton t, Or.inr rfl⟩
  · show (k.setNext t 0).next t = 0
    rw [Kernel.setNext_next, update_self]
  · intro hmem
    exact ht (List.mem_singleton.mp hmem).symm

/-- With a tail the links of the new thread and of the tail are written. -/
theorem pushBack_tail (h0 : k.last ≠ 0) :
    (ThreadQueue.pushBack k t).next = update (update k.next t 0) k.last t
      ∧ (ThreadQueue.pushBack k t).first = k.first ∧ (ThreadQueue.pushBack k t).last = t := by
  unfold ThreadQueue.pushBack
  have hif : (k.setNext t 0).last ≠ 0 := h0
  simp only [if_pos hif]
  refine ⟨?_, rfl, rfl⟩
  simp

theorem exists_append_last (h : Chain k queue) (h0 : k.last ≠ 0) :
    ∃ l, queue = l ++ [k.last] ∧ k.last ∉ l := by
  obtain ⟨l, hl⟩ := List.getLast?_eq_some_iff.mp (h.tail.resolve_left h0)
  refine ⟨l, hl, ?_⟩
  intro hmem
  have hnodup := h.nodup
  rw [hl] at hnodup
  exact (List.nodup_append.mp hnodup).2.2 k.last hmem k.last List.mem_cons_self rfl

/-- A new thread goes behind the tail. -/
theorem pushBack_new (h : Chain k queue) (h0 : k.last ≠ 0) (ht : t ≠ 0) (hmem : t ∉ queue) :
    Chain (ThreadQueue.pushBack k t) (queue ++ [t]) := by
  obtain ⟨l, hl, hlastl⟩ := h.exists_append_last h0
  obtain ⟨hnext, hfirst, hlast⟩ := pushBack_tail (t := t) h0
  have hne : t ≠ k.last := by
    intro heq
    apply hmem
    rw [hl, heq]
    exact List.mem_append_right l List.mem_cons_self
  constructor
  case seg =>
    -- the null link of the new thread first, then the link of the old tail
    have hseg := (h.seg.update (v := 0) hmem)
    rw [hl] at hseg
    rw [hnext, hfirst, hl]
    apply (hseg.updateLast hlastl).append
    refine ⟨rfl, ?_⟩
    show update (update k.next t 0) k.last t t = 0
    rw [update_of_ne hne, update_self]
  case nonnull =>
    intro h0mem
    rcases List.mem_append.mp h0mem with h0q | h0q
    · exact h.nonnull h0q
    · exact ht (List.mem_singleton.mp h0q).symm
  case nodup =>
    apply List.nodup_append.mpr
    refine ⟨h.nodup, List.nodup_singleton t, ?_⟩
    intro x hx y hy hxy
    rw [List.mem_singleton.mp hy] at hxy
    exact hmem (hxy ▸ hx)
  case tail =>
    right
    rw [hlast, List.getLast?_append, List.getLast?_singleton]
    rfl

/-- A thread of the queue that is not its tail becomes the tail: what was
behind it is cut off. -/
theorem pushBack_requeue {a b : List ThreadPtr} (h : Chain k (a ++ t :: b)) (h0 : k.last ≠ 0)
    (hne : t ≠ k.last) : Chain (ThreadQueue.pushBack k t) (a ++ [t]) := by
  obtain ⟨hnext, hfirst, hlast⟩ := pushBack_tail (t := t) h0
  have hnodup := h.nodup
  have hseg := h.seg
  have hsplit : a ++ t :: b = (a ++ [t]) ++ b := by simp
  rw [hsplit] at hnodup hseg
  have hnodup' : (a ++ [t]).Nodup := (List.nodup_append.mp hnodup).1
  have hta : t ∉ a := by
    intro hta
    exact (List.nodup_append.mp hnodup').2.2 t hta t List.mem_cons_self rfl
  -- the tail is behind `t`, so its link is not on the way to `t`
  have hlastb : k.last ∈ b := by
    have hget := h.tail.resolve_left h0
    have hmem : k.last ∈ t :: b := by
      rw [List.getLast?_append_of_ne_nil a (List.cons_ne_nil t b)] at hget
      exact List.mem_of_getLast? hget
    exact (List.mem_cons.mp hmem).resolve_left hne.symm
  constructor
  case seg =>
    obtain ⟨m, hpre, _⟩ := hseg.split
    rw [hnext, hfirst]
    apply (hpre.updateLast hta).update
    intro hmem
    exact (List.nodup_append.mp hnodup).2.2 k.last hmem k.last hlastb rfl
  case nonnull =>
    intro h0mem
    apply h.nonnull
    rw [hsplit]
    exact List.mem_append_left b h0mem
  case nodup => exact hnodup'
  case tail =>
    right
    rw [hlast, List.getLast?_append, List.getLast?_singleton]
    rfl

/-- **`push_back`** of a thread that is not the last one: it is in the queue
afterwards, once. -/
theorem pushBack (h : Chain k queue) (ht : t ≠ 0) (hlast : t ≠ k.last) :
    ∃ queue', Chain (ThreadQueue.pushBack k t) queue' ∧ t ∈ queue'
      ∧ ∀ x ∈ queue', x = t ∨ x ∈ queue := by
  by_cases h0 : k.last = 0
  · refine ⟨[t], pushBack_noTail h0 ht, List.mem_singleton_self t, ?_⟩
    intro x hx
    exact Or.inl (List.mem_singleton.mp hx)
  · by_cases hmem : t ∈ queue
    · obtain ⟨a, b, hab⟩ := List.append_of_mem hmem
      rw [hab] at h ⊢
      refine ⟨a ++ [t], h.pushBack_requeue h0 hlast, List.mem_append_right a List.mem_cons_self, ?_⟩
      intro x hx
      right
      rcases List.mem_append.mp hx with hxa | hxt
      · exact List.mem_append_left _ hxa
      · rw [List.mem_singleton.mp hxt]
        exact List.mem_append_right a List.mem_cons_self
    · refine ⟨queue ++ [t], h.pushBack_new h0 ht hmem,
        List.mem_append_right queue List.mem_cons_self, ?_⟩
      intro x hx
      rcases List.mem_append.mp hx with hxq | hxt
      · exact Or.inr hxq
      · exact Or.inl (List.mem_singleton.mp hxt)

/-- **`push_back` of the last thread** links it to itself: the queue then has
it at every position from there on. -/
theorem pushBack_last (h : Chain k queue) (h0 : k.last ≠ 0) :
    ∃ i, (ThreadQueue.pushBack k k.last).queueAt i = k.last
      ∧ (ThreadQueue.pushBack k k.last).queueAt (i + 1) = k.last := by
  obtain ⟨l, hl, hlastl⟩ := h.exists_append_last h0
  obtain ⟨hnext, hfirst, _⟩ := pushBack_tail (t := k.last) h0
  rw [update_idem] at hnext
  have hseg := h.seg
  have hnonnull := h.nonnull
  rw [hl] at hseg hnonnull
  -- the walk reaches the tail, whose link now leads to itself
  have hloop : (ThreadQueue.pushBack k k.last).queueAt l.length = k.last := by
    show walk _ 0 (ThreadQueue.pushBack k k.last).first l.length = k.last
    rw [hnext, hfirst]
    exact (hseg.updateLast hlastl).walk_seg (fun hmem => hnonnull (List.mem_append_left _ hmem))
  refine ⟨l.length, hloop, ?_⟩
  show (if (ThreadQueue.pushBack k k.last).queueAt l.length = 0 then 0
    else (ThreadQueue.pushBack k k.last).next ((ThreadQueue.pushBack k k.last).queueAt l.length))
      = k.last
  rw [hloop, if_neg h0, hnext, update_self]

/-! ### `erase`. -/

/-- Meeting `thread` with no node before it means meeting it at once. -/
theorem eraseFind_first {sizeofThread fuel : Nat} {p prev r : ThreadPtr}
    (hfind : ThreadQueue.eraseFind sizeofThread t fuel p prev = some (some r)) :
    (p = t ∧ r = prev) ∨ r ≠ 0 := by
  induction fuel generalizing p prev with
  | zero => exact absurd hfind (by simp [ThreadQueue.eraseFind])
  | succ fuel ih =>
      unfold ThreadQueue.eraseFind at hfind
      by_cases hp : p = 0
      · rw [if_pos hp] at hfind
        injection hfind with hfind
        exact absurd hfind (by simp)
      · rw [if_neg hp] at hfind
        by_cases hpt : p = t
        · rw [if_pos hpt] at hfind
          injection hfind with hfind
          injection hfind with hfind
          exact Or.inl ⟨hpt, hfind.symm⟩
        · rw [if_neg hpt] at hfind
          rcases ih hfind with ⟨_, hr⟩ | hr
          · right
            rw [hr]
            exact hp
          · exact Or.inr hr

/-- The queue loses its first thread. -/
theorem dropFirst (h : Chain k (t :: queue)) (hnext : ∀ x ∈ queue, k'.next x = k.next x)
    (hfirst : k'.first = k.next t) (hlast : k'.last = if k.last = t then 0 else k.last) :
    Chain k' queue := by
  have hnodup := List.nodup_cons.mp h.nodup
  constructor
  case seg =>
    rw [hfirst]
    exact h.seg.2.frame hnext
  case nonnull => exact fun hmem => h.nonnull (List.mem_cons_of_mem t hmem)
  case nodup => exact hnodup.2
  case tail =>
    rw [hlast]
    by_cases hlt : k.last = t
    · rw [if_pos hlt]
      exact Or.inl rfl
    · rw [if_neg hlt]
      rcases h.tail_of_cons with h0 | heq | hget
      · exact Or.inl h0
      · exact absurd heq hlt
      · exact Or.inr hget

/-- **`erase`** takes nothing else out of the queue and puts nothing in. -/
theorem erase {fuel sizeofThread : Nat} {found : Bool} (h : Chain k queue) (ht : t ≠ 0)
    (hrun : ThreadQueue.erase fuel sizeofThread k t = some (k', found)) :
    ∃ queue', Chain k' queue' ∧ ∀ x ∈ queue', x ∈ queue := by
  unfold ThreadQueue.erase at hrun
  cases hfind : ThreadQueue.eraseFind sizeofThread t fuel k.first 0 with
  | none =>
      rw [hfind] at hrun
      exact absurd hrun (by simp)
  | some met =>
      rw [hfind] at hrun
      cases met with
      | none =>
          injection hrun with hrun
          injection hrun with hk _
          exact ⟨queue, hk ▸ h, fun _ hx => hx⟩
      | some prev =>
          injection hrun with hrun
          injection hrun with hk _
          rw [← hk]
          by_cases hprev : prev = 0
          · simp only [if_pos hprev]
            -- `prev` is null only if the loop stopped at the first thread
            have hfirst : k.first = t := by
              rcases eraseFind_first hfind with hmet | hmet
              · exact hmet.1
              · exact absurd hprev hmet
            cases queue with
            | nil => exact absurd (hfirst.symm.trans h.seg) ht
            | cons x rest =>
                have hx : x = t := h.seg.start.symm.trans hfirst
                subst hx
                refine ⟨rest, h.dropFirst ?_ ?_ ?_, fun y hy => List.mem_cons_of_mem x hy⟩
                · intro y _
                  split <;> rfl
                · split <;> rfl
                · show Kernel.last (if k.last = x then _ else _) = _
                  split
                  · exact hprev
                  · rfl
          · -- the links stay; a tail that is erased leaves no tail
            simp only [if_neg hprev]
            refine ⟨queue, ⟨?_, h.nonnull, h.nodup, ?_⟩, fun _ hx => hx⟩
            · have hsame : (if k.last = t then k.setLast (k.next t) else k).next = k.next := by
                split <;> rfl
              have hfirst : (if k.last = t then k.setLast (k.next t) else k).first = k.first := by
                split <;> rfl
              rw [hsame, hfirst]
              exact h.seg
            · by_cases hlast : k.last = t
              · left
                rw [if_pos hlast]
                have h0 : k.last ≠ 0 := by
                  rw [hlast]
                  exact ht
                obtain ⟨l, hl, _⟩ := h.exists_append_last h0
                have hseg := h.seg
                rw [hl] at hseg
                show k.next t = 0
                rw [← hlast]
                exact hseg.next_last
              · rw [if_neg hlast]
                exact h.tail

end Chain

/-! ## §2. The loop of `get_optimal_thread`. -/

section Scan

open ThreadQueue (scan Scan)

variable {k : Kernel} {core : Int} {best prev thread q t : ThreadPtr} {l a b : List ThreadPtr}

/-- `best` is kept when the loop meets one of these threads. -/
def Keeps (k : Kernel) (core : Int) (best : ThreadPtr) (l : List ThreadPtr) : Prop :=
  k.preferred best = core
    ∨ ∀ x ∈ l, k.preferred x ≠ core ∧ (k.preferred best = -1 ∨ k.preferred x ≠ -1)

theorem Keeps.tail {x : ThreadPtr} (h : Keeps k core best (x :: l)) : Keeps k core best l := by
  rcases h with h | h
  · exact Or.inl h
  · exact Or.inr (fun y hy => h y (List.mem_cons_of_mem x hy))

theorem scan_succ (fuel : Nat) :
    scan k core (fuel + 1) best prev thread
      = if thread = 0 then some (.finished best prev)
        else if k.preferred best ≠ core ∧ k.preferred thread = core then
          some (.preferred thread prev)
        else scan k core fuel (if k.preferred best ≠ core ∧ k.preferred best ≠ -1
            ∧ k.preferred thread = -1 then thread else best) thread (k.next thread) := rfl

/-- The loop over threads that do not replace `best`. -/
theorem scan_skip (fuel : Nat) (hseg : Seg k.next thread l q) (hnull : 0 ∉ l)
    (hkeep : Keeps k core best l) :
    scan k core (fuel + l.length) best prev thread = scan k core fuel best (l.getLastD prev) q := by
  induction l generalizing prev thread with
  | nil =>
      have hq : thread = q := hseg
      rw [hq]
      rfl
  | cons x l ih =>
      have hx : thread = x := hseg.start
      have h0 : thread ≠ 0 := fun heq => hnull (by rw [← heq, hx]; exact List.mem_cons_self)
      -- neither `if` of the loop body is taken
      have hpass : ¬ (k.preferred best ≠ core ∧ k.preferred thread = core) := by
        intro ⟨hb, ht⟩
        rcases hkeep with hkeep | hkeep
        · exact hb hkeep
        · exact (hkeep x List.mem_cons_self).1 (hx ▸ ht)
      have hsame : ¬ (k.preferred best ≠ core ∧ k.preferred best ≠ -1
          ∧ k.preferred thread = -1) := by
        intro ⟨hb, hb1, ht⟩
        rcases hkeep with hkeep | hkeep
        · exact hb hkeep
        · rcases (hkeep x List.mem_cons_self).2 with h1 | h1
          · exact hb1 h1
          · exact h1 (hx ▸ ht)
      show scan k core (fuel + l.length + 1) best prev thread = _
      rw [scan_succ, if_neg h0, if_neg hpass, if_neg hsame, hx, List.getLastD_cons]
      exact ih hseg.2 (fun hmem => hnull (List.mem_cons_of_mem x hmem)) hkeep.tail

/-- The loop that runs to the end with `best`. -/
theorem scan_finished (prev : ThreadPtr) (hseg : Seg k.next thread l 0) (hnull : 0 ∉ l)
    (hkeep : Keeps k core best l) :
    scan k core (1 + l.length) best prev thread = some (.finished best (l.getLastD prev)) := by
  rw [scan_skip 1 hseg hnull hkeep, scan_succ, if_pos rfl]

/-- The loop that returns at the first thread that prefers the core. -/
theorem scan_preferred (prev : ThreadPtr) (hseg : Seg k.next thread (a ++ t :: b) q)
    (hnull : 0 ∉ a ++ t :: b) (hbest : k.preferred best ≠ core)
    (hnone : ∀ x ∈ a, k.preferred x ≠ core) (ht : k.preferred t = core) :
    scan k core (a.length + 1) best prev thread = some (.preferred t (a.getLastD prev)) := by
  induction a generalizing best prev thread with
  | nil =>
      have hx : thread = t := hseg.start
      have h0 : thread ≠ 0 := fun heq => hnull (by rw [← heq, hx]; exact List.mem_cons_self)
      rw [List.length_nil, scan_succ, if_neg h0, hx, if_pos ⟨hbest, ht⟩]
      rfl
  | cons x a ih =>
      have hx : thread = x := hseg.start
      have h0 : thread ≠ 0 := fun heq => hnull (by rw [← heq, hx]; exact List.mem_cons_self)
      have hxc : k.preferred x ≠ core := hnone x List.mem_cons_self
      have hpass : ¬ (k.preferred best ≠ core ∧ k.preferred thread = core) := by
        intro h
        exact hxc (hx ▸ h.2)
      show scan k core (a.length + 1 + 1) best prev thread = _
      rw [scan_succ, if_neg h0, if_neg hpass, hx, List.getLastD_cons]
      apply ih x hseg.2 (fun hmem => hnull (List.mem_cons_of_mem x hmem))
      · -- the new best has no preference, or is the old one
        show k.preferred (if _ then x else best) ≠ core
        split
        · exact hxc
        · exact hbest
      · exact fun y hy => hnone y (List.mem_cons_of_mem x hy)

/-- More fuel gives the same result. -/
theorem scan_mono {fuel : Nat} {r : Scan} (more : Nat)
    (hscan : scan k core fuel best prev thread = some r) :
    scan k core (fuel + more) best prev thread = some r := by
  induction fuel generalizing best prev thread with
  | zero => exact absurd hscan (by simp [scan])
  | succ fuel ih =>
      rw [show fuel + 1 + more = fuel + more + 1 by omega]
      rw [scan_succ] at hscan ⊢
      by_cases h0 : thread = 0
      · rw [if_pos h0] at hscan ⊢
        exact hscan
      · rw [if_neg h0] at hscan ⊢
        by_cases hpref : k.preferred best ≠ core ∧ k.preferred thread = core
        · rw [if_pos hpref] at hscan ⊢
          exact hscan
        · rw [if_neg hpref] at hscan ⊢
          exact ih hscan

/-- The result does not depend on the fuel. -/
theorem scan_unique {fuel fuel' : Nat} {r r' : Scan}
    (h : scan k core fuel best prev thread = some r)
    (h' : scan k core fuel' best prev thread = some r') : r = r' := by
  have h1 := scan_mono fuel' h
  have h2 := scan_mono fuel h'
  rw [show fuel' + fuel = fuel + fuel' by omega, h1] at h2
  injection h2

/-- On a chain that ends the loop does. -/
theorem scan_returns (core : Int) (best prev : ThreadPtr) (hseg : Seg k.next thread l 0) :
    (scan k core (l.length + 1) best prev thread).isSome = true := by
  induction l generalizing best prev thread with
  | nil =>
      have h0 : thread = 0 := hseg
      rw [scan_succ, if_pos h0]
      rfl
  | cons x l ih =>
      show (scan k core (l.length + 1 + 1) best prev thread).isSome = true
      rw [scan_succ]
      by_cases h0 : thread = 0
      · rw [if_pos h0]
        rfl
      · rw [if_neg h0]
        by_cases hpref : k.preferred best ≠ core ∧ k.preferred thread = core
        · rw [if_pos hpref]
          rfl
        · rw [if_neg hpref]
          apply ih
          rw [hseg.start]
          exact hseg.2

end Scan

/-! ## §3. `get_optimal_thread`. -/

section Optimal

open ThreadQueue

variable {k k' : Kernel} {core : Int} {fuel : Nat} {best t : ThreadPtr}
  {queue a b : List ThreadPtr}

theorem Chain.first_cons (h : Chain k (t :: queue)) : k.first = t := h.seg.start

/-- A queue that is not empty starts at one of its threads. -/
theorem Chain.first_mem (h : Chain k queue) (hmem : t ∈ queue) : k.first ∈ queue := by
  cases queue with
  | nil => exact absurd hmem List.not_mem_nil
  | cons x rest =>
      rw [h.first_cons]
      exact List.mem_cons_self

/-- The first thread of a list with a property, and the threads before it. -/
theorem exists_first {P : ThreadPtr → Prop} [DecidablePred P] (hex : ∃ x ∈ queue, P x) :
    ∃ a t b, queue = a ++ t :: b ∧ P t ∧ ∀ x ∈ a, ¬ P x := by
  have hfind : (queue.find? (fun x => P x)).isSome = true := by
    obtain ⟨x, hx, hP⟩ := hex
    rw [List.find?_isSome]
    exact ⟨x, hx, decide_eq_true hP⟩
  obtain ⟨t, ht⟩ := Option.isSome_iff_exists.mp hfind
  obtain ⟨hP, a, b, hab, ha⟩ := List.find?_eq_some_iff_append.mp ht
  refine ⟨a, t, b, hab, of_decide_eq_true hP, ?_⟩
  intro x hx
  have hnot := ha x hx
  simpa using hnot

/-- What unlinking the first thread leaves. -/
theorem takeBest_head (h : Chain k (t :: queue)) (core : Int) (prev : ThreadPtr) :
    (∀ x ∈ queue, (takeBest k core t prev).next x = k.next x)
      ∧ (takeBest k core t prev).first = k.next t
      ∧ (takeBest k core t prev).last = (if k.last = t then 0 else k.last)
      ∧ (takeBest k core t prev).preferred = update k.preferred t core := by
  have ht : t ≠ 0 := fun h0 => h.nonnull (by rw [← h0]; exact List.mem_cons_self)
  have hfirst : t = k.first := h.first_cons.symm
  have htq : t ∉ queue := (List.nodup_cons.mp h.nodup).1
  unfold takeBest
  simp only [if_pos ht, if_pos hfirst]
  refine ⟨?_, ?_, ?_, ?_⟩
  · intro x hx
    have hxt : x ≠ t := fun heq => htq (heq ▸ hx)
    split <;> simp [hxt]
  · split <;> simp
  · by_cases hlast : k.last = t
    · have hif : t = (k.setFirst (k.next t)).last := hlast.symm
      simp only [if_pos hif, if_pos hlast]
      rfl
    · have hif : ¬ t = (k.setFirst (k.next t)).last := fun heq => hlast heq.symm
      simp only [if_neg hif, if_neg hlast]
      rfl
  · split <;> simp

/-- Unlinking the first thread works. -/
theorem takeBest_first (h : Chain k (t :: queue)) (prev : ThreadPtr) :
    Chain (takeBest k core t prev) queue
      ∧ (takeBest k core t prev).preferred = update k.preferred t core := by
  obtain ⟨hnext, hfirst, hlast, hpreferred⟩ := takeBest_head h core prev
  exact ⟨h.dropFirst hnext hfirst hlast, hpreferred⟩

/-- A thread taken out of the middle of a queue is not in the rest. -/
theorem not_mem_of_nodup {p : ThreadPtr} (h : (a ++ p :: t :: b).Nodup) : t ∉ a ++ p :: b := by
  have hsplit : a ++ p :: t :: b = (a ++ [p]) ++ t :: b := by simp
  have hjoin : a ++ p :: b = (a ++ [p]) ++ b := by simp
  rw [hsplit] at h
  rw [hjoin]
  exact (List.nodup_cons.mp (List.nodup_middle.mp h)).1

/-- Unlinking behind the right predecessor works. -/
theorem takePreferred_behind {p : ThreadPtr} (h : Chain k (a ++ p :: t :: b)) :
    Chain (takePreferred k t p) (a ++ p :: b)
      ∧ (takePreferred k t p).preferred = k.preferred := by
  have hp : p ≠ 0 := by
    intro h0
    apply h.nonnull
    rw [← h0]
    exact List.mem_append_right a List.mem_cons_self
  have hsub : (a ++ p :: b).Sublist (a ++ p :: t :: b) :=
    ((List.sublist_cons_self t b).cons_cons p).append_left a
  have hnodup := h.nodup
  have hsplit : a ++ p :: t :: b = (a ++ [p]) ++ t :: b := by simp
  have htq : t ∉ a ++ p :: b := not_mem_of_nodup hnodup
  unfold takePreferred
  simp only [if_pos hp]
  constructor
  case right => split <;> simp
  case left =>
    constructor
    case seg =>
      have hseg := (h.seg.unlink hnodup).update (v := 0) htq
      by_cases hlast : t = (k.setNext p (k.next t)).last
      · simp only [if_pos hlast]
        simpa using hseg
      · simp only [if_neg hlast]
        simpa using hseg
    case nonnull => exact fun h0 => h.nonnull (hsub.subset h0)
    case nodup => exact hnodup.sublist hsub
    case tail =>
      have hget : k.last = 0 ∨ (t :: b).getLast? = some k.last := by
        rcases h.tail with h0 | hlast
        · exact Or.inl h0
        · right
          rw [hsplit, List.getLast?_append_of_ne_nil _ (List.cons_ne_nil t b)] at hlast
          exact hlast
      by_cases hlast : t = (k.setNext p (k.next t)).last
      · -- the tail was taken: its predecessor is the last node now
        simp only [if_pos hlast]
        right
        have hb : b = [] := by
          cases b with
          | nil => rfl
          | cons x rest =>
              exfalso
              have htl : t = k.last := hlast
              have hne : k.last ≠ 0 := by
                rw [← htl]
                intro h0
                apply h.nonnull
                rw [← h0]
                exact List.mem_append_right a (List.mem_cons_of_mem p List.mem_cons_self)
              have hget' := hget.resolve_left hne
              rw [List.getLast?_cons_cons, ← htl] at hget'
              rw [hsplit] at hnodup
              exact (List.nodup_cons.mp (List.nodup_append.mp hnodup).2.1).1
                (List.mem_of_getLast? hget')
        rw [hb, List.getLast?_append_of_ne_nil a (List.cons_ne_nil p [])]
        rfl
      · simp only [if_neg hlast]
        rcases hget with h0 | hget
        · exact Or.inl h0
        · right
          cases b with
          | nil =>
              have htl : t = k.last := by simpa using hget
              exact absurd htl hlast
          | cons x rest =>
              rw [List.getLast?_cons_cons] at hget
              rw [List.getLast?_append_of_ne_nil a (List.cons_ne_nil p _), List.getLast?_cons_cons]
              exact hget

/-- `t` was taken out of the queue for `core`: a thread that prefers the core
if there is one, else the first. -/
structure Taken (k k' : Kernel) (core : Int) (queue : List ThreadPtr) (t : ThreadPtr) : Prop where
  mem : t ∈ queue
  rest : ∃ queue', Chain k' queue' ∧ t ∉ queue' ∧ ∀ x ∈ queue', x ∈ queue
  preferred : k'.preferred = update k.preferred t core
  own : (∃ x ∈ queue, k.preferred x = core) → k.preferred t = core
  steal : (∀ x ∈ queue, k.preferred x ≠ core) → t = k.first

/-- The result of `get_optimal_thread` from the result of its loop. -/
theorem getOptimalThread_of_scan {fuel' : Nat} {r : Scan}
    (hscan : scan k core fuel' k.first 0 k.first = some r)
    (hrun : getOptimalThread fuel k core = some (k', best)) :
    (match r with
      | .preferred thread prev => (takePreferred k thread prev, thread)
      | .finished best prev => (takeBest k core best prev, best)) = (k', best) := by
  unfold getOptimalThread at hrun
  cases hscan' : scan k core fuel k.first 0 k.first with
  | none =>
      rw [hscan'] at hrun
      exact absurd hrun (by simp)
  | some r' =>
      rw [hscan', scan_unique hscan' hscan] at hrun
      cases r with
      | preferred thread prev =>
          injection hrun
      | finished best prev =>
          injection hrun

theorem getOptimalThread_nil (h : Chain k [])
    (hrun : getOptimalThread fuel k core = some (k', best)) : best = 0 ∧ k' = k := by
  have hfirst : k.first = 0 := h.seg
  -- the loop ends before its first turn
  have hscan : scan k core 1 k.first 0 k.first = some (.finished 0 0) := by
    rw [scan_succ, if_pos hfirst, hfirst]
  have hres := getOptimalThread_of_scan hscan hrun
  injection hres with hk hbest
  refine ⟨hbest.symm, ?_⟩
  rw [← hk]
  show (if (0 : ThreadPtr) ≠ 0 then _ else k) = k
  rw [if_neg (not_not_intro rfl)]

/-- The first thread is taken when nothing behind it replaces it. -/
theorem getOptimalThread_first (h : Chain k (t :: queue)) (hkeep : Keeps k core t (t :: queue))
    (hrun : getOptimalThread fuel k core = some (k', best)) :
    best = t ∧ Chain k' queue ∧ k'.preferred = update k.preferred t core := by
  have hscan := scan_finished 0 h.seg h.nonnull hkeep
  rw [← h.first_cons] at hscan
  have hres := getOptimalThread_of_scan hscan hrun
  injection hres with hk hbest
  rw [h.first_cons] at hk hbest
  rw [← hk]
  exact ⟨hbest.symm, takeBest_first h _⟩

/-- A thread that prefers the core is taken from anywhere in the queue. -/
theorem getOptimalThread_preferred {p : ThreadPtr} (h : Chain k (a ++ p :: t :: b))
    (hnone : ∀ x ∈ a ++ [p], k.preferred x ≠ core) (ht : k.preferred t = core)
    (hrun : getOptimalThread fuel k core = some (k', best)) :
    best = t ∧ Chain k' (a ++ p :: b) ∧ k'.preferred = k.preferred := by
  have hsplit : a ++ p :: t :: b = (a ++ [p]) ++ t :: b := by simp
  have hseg := h.seg
  have hfirst : k.preferred k.first ≠ core := by
    -- the queue starts at one of the threads before `t`
    apply hnone
    cases a with
    | nil =>
        rw [hseg.start]
        exact List.mem_cons_self
    | cons x a =>
        rw [hseg.start]
        exact List.mem_cons_self
  have hnull := h.nonnull
  rw [hsplit] at hseg hnull
  have hscan := scan_preferred 0 hseg hnull hfirst hnone ht
  have hprev : (a ++ [p]).getLastD 0 = p := by simp [List.getLastD_eq_getLast?]
  rw [hprev] at hscan
  have hres := getOptimalThread_of_scan hscan hrun
  injection hres with hk hbest
  rw [← hk]
  exact ⟨hbest.symm, takePreferred_behind h⟩

/-- Taking the first thread, which no thread behind it replaces. -/
theorem taken_first (h : Chain k (t :: queue)) (hkeep : Keeps k core t (t :: queue))
    (hown : (∃ x ∈ t :: queue, k.preferred x = core) → k.preferred t = core)
    (hrun : getOptimalThread fuel k core = some (k', best)) :
    Taken k k' core (t :: queue) best := by
  obtain ⟨hbest, hchain, hpref⟩ := getOptimalThread_first h hkeep hrun
  have hout : t ∉ queue := (List.nodup_cons.mp h.nodup).1
  rw [hbest]
  constructor
  case mem => exact List.mem_cons_self
  case rest => exact ⟨queue, hchain, hout, fun x hx => List.mem_cons_of_mem t hx⟩
  case preferred => exact hpref
  case own => exact hown
  case steal => exact fun _ => h.first_cons.symm

/-- Taking a thread that prefers the core from behind the first. -/
theorem taken_preferred {p : ThreadPtr} (h : Chain k (a ++ p :: t :: b))
    (hnone : ∀ x ∈ a ++ [p], k.preferred x ≠ core) (ht : k.preferred t = core)
    (hrun : getOptimalThread fuel k core = some (k', best)) :
    Taken k k' core (a ++ p :: t :: b) best := by
  obtain ⟨hbest, hchain, hpref⟩ := getOptimalThread_preferred h hnone ht hrun
  have hmem : t ∈ a ++ p :: t :: b :=
    List.mem_append_right a (List.mem_cons_of_mem p List.mem_cons_self)
  have hsub : (a ++ p :: b).Sublist (a ++ p :: t :: b) :=
    ((List.sublist_cons_self t b).cons_cons p).append_left a
  rw [hbest]
  constructor
  case mem => exact hmem
  case rest => exact ⟨a ++ p :: b, hchain, not_mem_of_nodup h.nodup, fun x hx => hsub.subset hx⟩
  case preferred =>
    rw [hpref, ← ht]
    exact (update_eq_self t k.preferred).symm
  case own => exact fun _ => ht
  case steal => exact fun hall => absurd ht (hall t hmem)

/-- How the search ends, when some thread prefers the core, or the first has no
preference, or none is without one: it keeps the first thread, or it stops at the
first one that prefers the core. -/
theorem search_cases (h : Chain k (t :: queue))
    (hsafe : (∃ x ∈ t :: queue, k.preferred x = core) ∨ k.preferred k.first = -1
      ∨ ∀ x ∈ t :: queue, k.preferred x ≠ -1) :
    (Keeps k core t (t :: queue) ∧ ((∃ x ∈ t :: queue, k.preferred x = core) → k.preferred t = core))
    ∨ ∃ a p x b, t :: queue = a ++ p :: x :: b ∧ (∀ y ∈ a ++ [p], k.preferred y ≠ core)
        ∧ k.preferred x = core := by
  by_cases htc : k.preferred t = core
  · exact Or.inl ⟨Or.inl htc, fun _ => htc⟩
  · by_cases hex : ∃ x ∈ queue, k.preferred x = core
    · right
      obtain ⟨mid, x, b, hrest, hx, hmid⟩ := exists_first hex
      -- the node before `x` is the first thread or one of `mid`
      have hpre : ∃ a p, t :: mid = a ++ [p] := by
        refine ⟨(t :: mid).dropLast, (t :: mid).getLast (List.cons_ne_nil t mid), ?_⟩
        exact (List.dropLast_append_getLast (List.cons_ne_nil t mid)).symm
      obtain ⟨a, p, hap⟩ := hpre
      refine ⟨a, p, x, b, ?_, ?_, hx⟩
      · rw [hrest, ← List.cons_append, hap, List.append_assoc]
        rfl
      · intro y hy
        rw [← hap] at hy
        rcases List.mem_cons.mp hy with hyt | hym
        · rw [hyt]
          exact htc
        · exact hmid y hym
    · left
      have hnone : ∀ x ∈ t :: queue, k.preferred x ≠ core := by
        intro x hx hxc
        rcases List.mem_cons.mp hx with hxt | hxr
        · exact htc (hxt ▸ hxc)
        · exact hex ⟨x, hxr, hxc⟩
      refine ⟨Or.inr fun x hx => ⟨hnone x hx, ?_⟩, fun ⟨x, hx, hxc⟩ => absurd hxc (hnone x hx)⟩
      -- nobody prefers the core, so the condition speaks of the first thread
      rcases hsafe with hsome | hfirst | hnone1
      · obtain ⟨y, hy, hyc⟩ := hsome
        exact absurd hyc (hnone y hy)
      · rw [h.first_cons] at hfirst
        exact Or.inl hfirst
      · exact Or.inr (hnone1 x hx)

/-- **The thread a core takes**, when some thread prefers the core, or the first
has no preference, or none is without one: the search unlinks what it takes. -/
theorem getOptimalThread_takes (h : Chain k queue)
    (hsafe : (∃ x ∈ queue, k.preferred x = core) ∨ k.preferred k.first = -1
      ∨ ∀ x ∈ queue, k.preferred x ≠ -1)
    (hrun : getOptimalThread fuel k core = some (k', best)) :
    (queue = [] ∧ best = 0 ∧ k' = k) ∨ Taken k k' core queue best := by
  cases queue with
  | nil => exact Or.inl ⟨rfl, getOptimalThread_nil h hrun⟩
  | cons f rest =>
      right
      rcases search_cases h hsafe with ⟨hkeep, hown⟩ | ⟨a, p, t, b, hqueue, hnone, ht⟩
      · exact taken_first h hkeep hown hrun
      · rw [hqueue] at h ⊢
        exact taken_preferred h hnone ht hrun

/-- Up to a thread without a preference the first thread stays the best one;
from there on it is that thread. -/
theorem scan_skewed (h : Chain k (a ++ t :: b)) (hfirst : k.preferred k.first ≠ -1)
    (hnone : ∀ x ∈ a ++ t :: b, k.preferred x ≠ core) (ht : k.preferred t = -1)
    (ha : ∀ x ∈ a, k.preferred x ≠ -1) :
    scan k core (1 + b.length + 1 + a.length) k.first 0 k.first
      = some (.finished t (b.getLastD t)) := by
  have hmem : t ∈ a ++ t :: b := List.mem_append_right a List.mem_cons_self
  have h0 : t ≠ 0 := fun h0 => h.nonnull (h0 ▸ hmem)
  obtain ⟨m, hpre, hsuf⟩ := h.seg.split
  have hm : m = t := hsuf.start
  rw [hm] at hpre
  have hkeep : Keeps k core k.first a :=
    Or.inr (fun x hx => ⟨hnone x (List.mem_append_left _ hx), Or.inr (ha x hx)⟩)
  rw [scan_skip (1 + b.length + 1) hpre (fun hx => h.nonnull (List.mem_append_left _ hx)) hkeep]
  have hother : k.preferred t ≠ core := hnone t hmem
  have hfc : k.preferred k.first ≠ core := hnone k.first (h.first_mem hmem)
  rw [scan_succ, if_neg h0, if_neg (fun hc => hother hc.2), if_pos ⟨hfc, hfirst, ht⟩]
  apply scan_finished _ hsuf.2
  · intro hx
    exact h.nonnull (List.mem_append_right a (List.mem_cons_of_mem t hx))
  · right
    intro x hx
    exact ⟨hnone x (List.mem_append_right a (List.mem_cons_of_mem t hx)), Or.inl ht⟩

/-- A thread that is not the first is not unlinked by way of the last one: the
links of the threads before it still lead to it. -/
theorem takeBest_queued (h : Chain k (a ++ t :: b)) (htf : t ≠ k.first) :
    (takeBest k core t (b.getLastD t)).Queued t := by
  have h0 : t ≠ 0 :=
    fun h0 => h.nonnull (h0 ▸ List.mem_append_right a List.mem_cons_self)
  have hdisj := (List.nodup_append.mp h.nodup).2.2
  have hta : t ∉ a := fun hmem => hdisj t hmem t List.mem_cons_self rfl
  have hlast : b.getLastD t ∉ a := by
    intro hmem
    have hin : b.getLastD t ∈ t :: b := by
      cases b with
      | nil => exact List.mem_cons_self
      | cons x rest =>
          apply List.mem_cons_of_mem
          rw [List.getLastD_cons, List.getLastD_eq_getLast?]
          have hget : (x :: rest).getLast? = some (rest.getLast?.getD x) := List.getLast?_cons
          exact List.mem_of_getLast? hget
    exact hdisj _ hmem _ hin rfl
  -- the two links that are written
  have hnext : (takeBest k core t (b.getLastD t)).next
      = update (update k.next (b.getLastD t) (k.next t)) t 0 := by
    unfold takeBest
    simp only [if_pos h0, if_neg htf]
    split <;> simp
  have hfirst : (takeBest k core t (b.getLastD t)).first = k.first := by
    unfold takeBest
    simp only [if_pos h0, if_neg htf]
    split <;> simp
  obtain ⟨m, hpre, hsuf⟩ := h.seg.split
  have hm : m = t := hsuf.start
  rw [hm] at hpre
  -- neither of them is the link of a thread before `t`
  have hpost : Seg (takeBest k core t (b.getLastD t)).next
      (takeBest k core t (b.getLastD t)).first (a ++ t :: []) 0 := by
    rw [hnext, hfirst]
    refine ((hpre.update hlast).update hta).append ⟨rfl, ?_⟩
    show update _ t 0 t = 0
    rw [update_self]
  refine ⟨h0, a.length, ?_⟩
  exact hpost.walk_seg (fun hmem => h.nonnull (List.mem_append_left _ hmem))

/-- **The search that leaves what it takes in the queue**: the first thread
prefers another core, none prefers this one and one behind it has no
preference.  The link that is written is that of the LAST thread. -/
theorem getOptimalThread_skewed (h : Chain k queue) (hfirst : k.preferred k.first ≠ -1)
    (hnone : ∀ x ∈ queue, k.preferred x ≠ core) (hfree : ∃ x ∈ queue, k.preferred x = -1)
    (hrun : getOptimalThread fuel k core = some (k', best)) : k'.Queued best := by
  obtain ⟨a, t, b, hab, ht, ha⟩ := exists_first hfree
  subst hab
  have htf : t ≠ k.first := by
    intro heq
    rw [← heq] at hfirst
    exact hfirst ht
  have hres := getOptimalThread_of_scan (scan_skewed h hfirst hnone ht ha) hrun
  injection hres with hk hbest
  rw [← hbest, ← hk]
  exact takeBest_queued h htf

/-- On a well-linked queue the search ends. -/
theorem getOptimalThread_returns (h : Chain k queue) (core : Int) :
    (getOptimalThread (queue.length + 1) k core).isSome = true := by
  have hscan := scan_returns core k.first 0 h.seg
  obtain ⟨r, hr⟩ := Option.isSome_iff_exists.mp hscan
  unfold getOptimalThread
  rw [hr]
  cases r with
  | preferred thread prev => rfl
  | finished best prev => rfl

end Optimal

end MierOS.Tasking.Scheduling
