/-
  MierOS.Tasking.ThreadQueue — `ThreadQueue` of `thread_queue.hpp` as a list of
  threads, with the operations the scheduler itself does not use.

  `Refines k queue` is what a well-formed queue is: the links lead through the
  threads of `queue` to null and `last` is the final one.

  Main results: `get_optimal_thread_removes_iff`, `thread_queue_refines_list`.
-/
import Mathlib.Logic.Function.Iterate
import MierOS.Tasking.RunQueue

namespace MierOS.Tasking.Scheduling

open Lib Lib.Links

/-! ## §1. Well-formed queues. -/

/-- **The queue is `queue`**: an acyclic chain of distinct threads from `first`
to `last`, which is null if there is none. -/
structure Refines (k : Kernel) (queue : List ThreadPtr) : Prop extends Chain k queue where
  last_eq : k.last = queue.getLastD 0

namespace Refines

variable {k k' : Kernel} {queue : List ThreadPtr} {t : ThreadPtr}

/-- A chain with a tail where there is a thread. -/
theorem of_chain (h : Chain k queue) (hnil : queue = [] → k.last = 0)
    (hcons : queue ≠ [] → k.last ≠ 0) : Refines k queue := by
  refine ⟨h, ?_⟩
  by_cases hq : queue = []
  · rw [hnil hq, hq]
    rfl
  · have hget := h.tail.resolve_left (hcons hq)
    rw [List.getLastD_eq_getLast?, hget]
    rfl

theorem last_ne_zero (h : Refines k queue) (hq : queue ≠ []) : k.last ≠ 0 := by
  obtain ⟨l, x, hl⟩ : ∃ l x, queue = l ++ [x] :=
    ⟨queue.dropLast, queue.getLast hq, (List.dropLast_append_getLast hq).symm⟩
  rw [h.last_eq, hl, List.getLastD_concat]
  intro hx
  apply h.nonnull
  rw [hl, hx]
  exact List.mem_append_right l List.mem_cons_self

theorem last_nil (h : Refines k []) : k.last = 0 := h.last_eq

theorem first_eq (h : Refines k queue) : k.first = queue.headD 0 := by
  cases queue with
  | nil => exact h.seg
  | cons x rest => exact h.seg.start

/-- The tail is behind the first thread of a longer queue. -/
theorem last_ne_first {x : ThreadPtr} (h : Refines k (t :: x :: queue)) : k.last ≠ t := by
  have hmem : k.last ∈ x :: queue := by
    have hget := h.tail.resolve_left (h.last_ne_zero (List.cons_ne_nil t _))
    rw [List.getLast?_cons_cons] at hget
    exact List.mem_of_getLast? hget
  intro heq
  exact (List.nodup_cons.mp h.nodup).1 (heq ▸ hmem)

theorem last_single (h : Refines k [t]) : k.last = t := h.last_eq

/-- Two lists that the same queue refines are the same. -/
theorem mem_iff (h : Refines k queue) : k.Queued t ↔ t ∈ queue := h.toChain.queued_iff

/-- The queue loses its first thread. -/
theorem dropFirst (h : Refines k (t :: queue)) (hnext : ∀ x ∈ queue, k'.next x = k.next x)
    (hfirst : k'.first = k.next t) (hlast : k'.last = if k.last = t then 0 else k.last) :
    Refines k' queue := by
  refine of_chain (h.toChain.dropFirst hnext hfirst hlast) ?_ ?_
  · intro hnil
    subst hnil
    rw [hlast, if_pos h.last_single]
  · intro hcons
    obtain ⟨x, rest, rfl⟩ := List.exists_cons_of_ne_nil hcons
    rw [hlast, if_neg h.last_ne_first]
    exact h.last_ne_zero (List.cons_ne_nil t _)

end Refines

/-! ## §2. `get_optimal_thread`. -/

section Optimal

open ThreadQueue

variable {k k' : Kernel} {queue a b : List ThreadPtr} {t best p : ThreadPtr} {core : Int}
  {fuel : Nat}

theorem takeBest_next_self (ht : t ≠ 0) (prev : ThreadPtr) : (takeBest k core t prev).next t = 0 := by
  unfold takeBest
  simp only [if_pos ht]
  split <;> simp

theorem takePreferred_next_self (prev : ThreadPtr) : (takePreferred k t prev).next t = 0 := by
  unfold takePreferred
  simp

theorem takePreferred_last (hp : p ≠ 0) :
    (takePreferred k t p).last = if t = k.last then p else k.last := by
  unfold takePreferred
  simp only [if_pos hp]
  by_cases hlast : t = k.last
  · have hif : t = (k.setNext p (k.next t)).last := hlast
    simp only [if_pos hif, if_pos hlast]
    rfl
  · have hif : ¬ t = (k.setNext p (k.next t)).last := hlast
    simp only [if_neg hif, if_neg hlast]
    rfl

theorem Refines.takeBest_first (h : Refines k (t :: queue)) (prev : ThreadPtr) :
    Refines (takeBest k core t prev) queue := by
  obtain ⟨hnext, hfirst, hlast, -⟩ := takeBest_head h.toChain core prev
  exact h.dropFirst hnext hfirst hlast

/-- A thread behind its predecessor is removed. -/
theorem Refines.takePreferred_behind (h : Refines k (a ++ p :: t :: b)) :
    Refines (takePreferred k t p) (a ++ p :: b) := by
  have hp : p ≠ 0 := by
    intro h0
    apply h.nonnull
    rw [← h0]
    exact List.mem_append_right a List.mem_cons_self
  refine Refines.of_chain (Scheduling.takePreferred_behind h.toChain).1 (fun hnil => ?_)
    (fun _ => ?_)
  · exact absurd hnil (by simp)
  · rw [takePreferred_last hp]
    split
    · exact hp
    · exact h.last_ne_zero (by simp)

/-- **The search removed exactly what it returns**: nothing from an empty queue,
else one thread, with the others still queued in their order. -/
def Removes (k' : Kernel) (queue : List ThreadPtr) (best : ThreadPtr) : Prop :=
  (queue = [] ∧ best = 0 ∧ Refines k' [])
    ∨ ∃ a b, queue = a ++ best :: b ∧ Refines k' (a ++ b) ∧ k'.next best = 0

/-- The thread that is picked is the first of the queue or prefers the core:
some thread prefers it, or the first has no preference, or no thread is without
one. -/
def PicksFirstOrPreferred (k : Kernel) (queue : List ThreadPtr) (core : Int) : Prop :=
  (∃ x ∈ queue, k.preferred x = core) ∨ k.preferred k.first = -1
    ∨ ∀ x ∈ queue, k.preferred x ≠ -1

theorem removes_nil (h : Refines k []) (hrun : getOptimalThread fuel k core = some (k', best)) :
    Removes k' [] best := by
  obtain ⟨hbest, hk⟩ := getOptimalThread_nil h.toChain hrun
  exact Or.inl ⟨rfl, hbest, hk ▸ h⟩

theorem removes_first (h : Refines k (t :: queue)) (hkeep : Keeps k core t (t :: queue))
    (hrun : getOptimalThread fuel k core = some (k', best)) : Removes k' (t :: queue) best := by
  have ht : t ≠ 0 := fun h0 => h.nonnull (by rw [← h0]; exact List.mem_cons_self)
  have hscan := scan_finished 0 h.seg h.nonnull hkeep
  rw [← h.toChain.first_cons] at hscan
  have hres := getOptimalThread_of_scan hscan hrun
  injection hres with hk hbest
  rw [h.toChain.first_cons] at hk hbest
  rw [← hk, ← hbest]
  exact Or.inr ⟨[], queue, rfl, h.takeBest_first _, takeBest_next_self ht _⟩

theorem removes_preferred (h : Refines k (a ++ p :: t :: b))
    (hnone : ∀ x ∈ a ++ [p], k.preferred x ≠ core) (ht : k.preferred t = core)
    (hrun : getOptimalThread fuel k core = some (k', best)) :
    Removes k' (a ++ p :: t :: b) best := by
  have hsplit : a ++ p :: t :: b = (a ++ [p]) ++ t :: b := by simp
  have hfirst : k.preferred k.first ≠ core := by
    -- the queue starts at one of the threads before `t`
    apply hnone
    rw [h.first_eq]
    cases a with
    | nil => exact List.mem_cons_self
    | cons x a => exact List.mem_cons_self
  have hseg := h.seg
  have hnull := h.nonnull
  rw [hsplit] at hseg hnull
  have hscan := scan_preferred 0 hseg hnull hfirst hnone ht
  rw [List.getLastD_concat] at hscan
  have hres := getOptimalThread_of_scan hscan hrun
  injection hres with hk hbest
  rw [← hk, ← hbest]
  refine Or.inr ⟨a ++ [p], b, hsplit, ?_, takePreferred_next_self p⟩
  rw [List.append_assoc]
  exact h.takePreferred_behind

/-- A thread that was removed is not queued. -/
theorem Removes.not_queued (hnodup : queue.Nodup) (h : Removes k' queue best) :
    ¬ k'.Queued best := by
  rcases h with ⟨_, hbest, _⟩ | ⟨a, b, hab, href, _⟩
  · exact fun hq => hq.1 hbest
  · rw [href.mem_iff]
    rw [hab] at hnodup
    exact (List.nodup_cons.mp (List.nodup_middle.mp hnodup)).1

/-- **`get_optimal_thread`** on a well-formed queue ends, and removes what it
returns exactly when it picks the first thread or one that prefers the core. -/
theorem get_optimal_thread_removes_iff (h : Refines k queue) (core : Int) :
    (∃ fuel, (getOptimalThread fuel k core).isSome = true)
      ∧ ∀ fuel k' best, getOptimalThread fuel k core = some (k', best) →
        (Removes k' queue best ↔ PicksFirstOrPreferred k queue core) := by
  refine ⟨⟨queue.length + 1, getOptimalThread_returns h.toChain core⟩, ?_⟩
  intro fuel k' best hrun
  constructor
  · intro hremoves
    by_contra hpick
    -- then the search leaves the thread it returns in the queue
    unfold PicksFirstOrPreferred at hpick
    push Not at hpick
    obtain ⟨hnone, hfirst, hfree⟩ := hpick
    exact hremoves.not_queued h.nodup (getOptimalThread_skewed h.toChain hfirst hnone hfree hrun)
  · intro hpick
    cases queue with
    | nil => exact removes_nil h hrun
    | cons t rest =>
        rcases search_cases h.toChain hpick with ⟨hkeep, _⟩ | ⟨a, p, x, b, hqueue, hnone, hx⟩
        · exact removes_first h hkeep hrun
        · rw [hqueue] at h ⊢
          exact removes_preferred h hnone hx hrun

end Optimal

/-- Threads 1 and 2 in the queue, with their preferred cores. -/
def twoQueued (first second : Int) : Kernel where
  threads t :=
    { Thread.create 0 t with
      next := if t = 1 then 2 else 0, preferredCore := if t = 1 then first else second }
  byPid tid := tid.toNat
  runnableQueue := ⟨1, 2⟩
  schedulers _ := ⟨0, 0, false, false⟩
  sleeping _ := []

theorem twoQueued_refines (first second : Int) : Refines (twoQueued first second) [1, 2] where
  seg := ⟨rfl, rfl, rfl⟩
  nonnull := by decide
  nodup := by decide
  tail := Or.inr rfl
  last_eq := rfl

/-- The first thread prefers core 3, the second has no preference: core 0 gets the
second and the queue keeps it. -/
theorem thread_returned_and_kept :
    ∃ k', Refines (twoQueued 3 (-1)) [1, 2]
      ∧ ThreadQueue.getOptimalThread 3 (twoQueued 3 (-1)) 0 = some (k', 2)
      ∧ ¬ Removes k' [1, 2] 2 :=
  ⟨_, twoQueued_refines 3 (-1), rfl, fun h => h.not_queued (by decide) ⟨by decide, 1, rfl⟩⟩

/-- The second thread prefers core 0: it is removed. -/
theorem get_optimal_thread_removes_iff_own :
    ∃ k', ThreadQueue.getOptimalThread 3 (twoQueued 3 0) 0 = some (k', 2) ∧ Removes k' [1, 2] 2 :=
  ⟨_, rfl, ((get_optimal_thread_removes_iff (twoQueued_refines 3 0) 0).2 3 _ 2 rfl).mpr
    (Or.inl ⟨2, by decide, rfl⟩)⟩

/-! ## §3. The other operations. -/

namespace ThreadQueue

/-- `push_front(thread)`; `length` is not incremented. -/
def pushFront (k : Kernel) (thread : ThreadPtr) : Kernel :=
  let k := k.setNext thread k.first
  let k := k.setFirst thread
  if k.last = 0 then k.setLast k.first else k

/-- `pop_front()`. -/
def popFront (k : Kernel) : Kernel :=
  if k.first = k.last then (k.setFirst 0).setLast 0 else k.setFirst (k.next k.first)

/-- A `ThreadQueue::iterator`. -/
structure Iterator where
  thread : ThreadPtr
  prev : ThreadPtr
  deriving Repr, DecidableEq

/-- `begin()`. -/
def begin (k : Kernel) : Iterator := ⟨k.first, 0⟩

/-- `operator++`. -/
def Iterator.advance (k : Kernel) (pos : Iterator) : Iterator := ⟨k.next pos.thread, pos.thread⟩

/-- `erase(pos)`; the first branch leaves `last` alone, and neither changes
`length`. -/
def eraseAt (k : Kernel) (pos : Iterator) : Kernel × Iterator :=
  if pos.prev = 0 then
    let k := k.setFirst (k.next pos.thread)
    let k := k.setNext pos.thread 0
    (k, ⟨k.first, 0⟩)
  else
    let k := if k.next pos.thread = 0 then k.setLast pos.prev else k
    let k := k.setNext pos.prev (k.next pos.thread)
    let k := k.setNext pos.thread 0
    (k, ⟨k.next pos.prev, pos.prev⟩)

/-- An iterator at a thread of the queue, from `begin()` by `++`. -/
inductive Iterator.Valid (k : Kernel) : Iterator → Prop
  | begin (hfirst : k.first ≠ 0) : Iterator.Valid k (begin k)
  | advance {pos : Iterator} (hpos : Iterator.Valid k pos) (hnext : k.next pos.thread ≠ 0) :
      Iterator.Valid k (pos.advance k)

end ThreadQueue

open ThreadQueue (Iterator)

/-- A queue with its `length`, a `size_t`. -/
structure SizedQueue where
  kernel : Kernel
  length : BitVec 64

/-- A call on a queue, and for `erase(Thread*)` what it returned. -/
inductive QueueCall where
  | pushFront (thread : ThreadPtr)
  | pushBack (thread : ThreadPtr)
  | popFront
  | erase (thread : ThreadPtr) (found : Bool)
  | eraseAt (pos : Iterator)
  deriving Repr, DecidableEq

namespace SizedQueue

/-- `size()`. -/
def size (s : SizedQueue) : BitVec 64 := s.length

/-- One call.  `erase(Thread*)` returns if its loop ends. -/
inductive Step (sizeofThread : Nat) (s : SizedQueue) : QueueCall → SizedQueue → Prop
  | pushFront {thread : ThreadPtr} :
      Step sizeofThread s (.pushFront thread) ⟨ThreadQueue.pushFront s.kernel thread, s.length⟩
  | pushBack {thread : ThreadPtr} :
      Step sizeofThread s (.pushBack thread) ⟨ThreadQueue.pushBack s.kernel thread, s.length + 1⟩
  | popFront : Step sizeofThread s .popFront ⟨ThreadQueue.popFront s.kernel, s.length - 1⟩
  | erase {thread : ThreadPtr} {found : Bool} {k' : Kernel} (fuel : Nat)
      (hrun : ThreadQueue.erase fuel sizeofThread s.kernel thread = some (k', found)) :
      Step sizeofThread s (.erase thread found)
        ⟨k', if found then s.length - 1 else s.length⟩
  | eraseAt {pos : Iterator} :
      Step sizeofThread s (.eraseAt pos) ⟨(ThreadQueue.eraseAt s.kernel pos).1, s.length⟩

end SizedQueue

/-! ### The list a history makes. -/

/-- A call on a list of threads. -/
def QueueCall.apply (c : QueueCall) (queue : List ThreadPtr) : List ThreadPtr :=
  match c with
  | .pushFront thread => thread :: queue
  | .pushBack thread => queue ++ [thread]
  | .popFront => queue.tail
  | .erase thread _ => queue.erase thread
  | .eraseAt pos => queue.erase pos.thread

/-- The abstract list after the calls of a history, most recent first. -/
def threadsOf (hist : List QueueCall) : List ThreadPtr := hist.foldr QueueCall.apply []

/-- What the callers see to: threads that are pushed are not queued, `pop_front`
finds a thread, a thread to erase is one, an iterator is at one. -/
def QueueCall.Proper (k : Kernel) (queue : List ThreadPtr) : QueueCall → Prop
  | .pushFront thread => thread ≠ 0 ∧ thread ∉ queue
  | .pushBack thread => thread ≠ 0 ∧ thread ∉ queue
  | .popFront => queue ≠ []
  | .erase thread _ => thread ≠ 0
  | .eraseAt pos => pos.Valid k

/-- Stepping over memory in strides of `sizeofThread`, the loop of
`erase(Thread*)` comes to address 0 before it comes to `thread`. -/
def RunsToNull (sizeofThread : Nat) (first thread : ThreadPtr) : Prop :=
  ∃ n, (fun t => (t + sizeofThread) % 2 ^ 64)^[n] first = 0
    ∧ ∀ i < n, (fun t => (t + sizeofThread) % 2 ^ 64)^[i] first ≠ thread

/-- **The calls that keep the links right**: a thread to erase is the first of the
queue, or is not queued and the loop misses it; an iterator does not erase the only
thread. -/
def QueueCall.KeepsLinks (sizeofThread : Nat) (queue : List ThreadPtr) : QueueCall → Prop
  | .erase thread _ => queue.head? = some thread
      ∨ (thread ∉ queue ∧ RunsToNull sizeofThread (queue.headD 0) thread)
  | .eraseAt _ => queue.length ≠ 1
  | _ => True

/-- `erase(Thread*)` says whether the thread was queued. -/
def QueueCall.Right (queue : List ThreadPtr) : QueueCall → Prop
  | .erase thread found => found = true ↔ thread ∈ queue
  | _ => True

/-! ### What each operation does to the list. -/

section Operations

open ThreadQueue

variable {k k' : Kernel} {queue a b : List ThreadPtr} {t p : ThreadPtr} {sizeofThread fuel : Nat}

theorem Refines.pushFront (h : Refines k queue) (ht : t ≠ 0) (hmem : t ∉ queue) :
    Refines (pushFront k t) (t :: queue) := by
  -- the links and `first` do not depend on whether `last` is written
  have hnext : (ThreadQueue.pushFront k t).next = Function.update k.next t k.first := by
    unfold ThreadQueue.pushFront
    dsimp only
    split <;> simp
  have hfirst : (ThreadQueue.pushFront k t).first = t := by
    unfold ThreadQueue.pushFront
    dsimp only
    split <;> rfl
  have hlast : (ThreadQueue.pushFront k t).last = if k.last = 0 then t else k.last := by
    unfold ThreadQueue.pushFront
    by_cases h0 : k.last = 0
    · have hif : ((k.setNext t k.first).setFirst t).last = 0 := h0
      simp only [if_pos hif, if_pos h0]
      rfl
    · have hif : ¬ ((k.setNext t k.first).setFirst t).last = 0 := h0
      simp only [if_neg hif, if_neg h0]
      rfl
  have hlast' : (ThreadQueue.pushFront k t).last = (t :: queue).getLastD 0 := by
    rw [hlast]
    by_cases hq : queue = []
    · subst hq
      rw [if_pos h.last_nil]
      rfl
    · rw [if_neg (h.last_ne_zero hq), h.last_eq]
      obtain ⟨x, rest, rfl⟩ := List.exists_cons_of_ne_nil hq
      rw [List.getLastD_cons, List.getLastD_cons, List.getLastD_cons]
  refine ⟨⟨?_, ?_, List.nodup_cons.mpr ⟨hmem, h.nodup⟩, ?_⟩, hlast'⟩
  · rw [hnext, hfirst]
    refine ⟨rfl, ?_⟩
    rw [Function.update_self]
    exact h.seg.update hmem
  · intro h0
    rcases List.mem_cons.mp h0 with h0t | h0q
    · exact ht h0t.symm
    · exact h.nonnull h0q
  · right
    rw [hlast', List.getLastD_eq_getLast?, List.getLast?_cons]
    rfl

theorem Refines.pushBack (h : Refines k queue) (ht : t ≠ 0) (hmem : t ∉ queue) :
    Refines (ThreadQueue.pushBack k t) (queue ++ [t]) := by
  by_cases hq : queue = []
  · subst hq
    refine Refines.of_chain (Chain.pushBack_noTail h.last_nil ht) (fun hnil => ?_) (fun _ => ?_)
    · exact absurd hnil (by simp)
    · unfold ThreadQueue.pushBack
      have hif : ¬ (k.setNext t 0).last ≠ 0 := not_not_intro h.last_nil
      simp only [if_neg hif]
      exact ht
  · have h0 := h.last_ne_zero hq
    refine Refines.of_chain (h.toChain.pushBack_new h0 ht hmem) (fun hnil => ?_) (fun _ => ?_)
    · exact absurd hnil (by simp)
    · rw [(Chain.pushBack_tail (t := t) h0).2.2]
      exact ht

theorem Refines.popFront (h : Refines k (t :: queue)) : Refines (popFront k) queue := by
  have hfirst := h.toChain.first_cons
  unfold ThreadQueue.popFront
  cases queue with
  | nil =>
      rw [if_pos (hfirst.trans h.last_single.symm)]
      exact ⟨⟨rfl, List.not_mem_nil, List.nodup_nil, Or.inl rfl⟩, rfl⟩
  | cons x rest =>
      have hne : ¬ k.first = k.last := by
        rw [hfirst]
        exact fun heq => h.last_ne_first heq.symm
      rw [if_neg hne]
      refine h.dropFirst (fun _ _ => rfl) ?_ ?_
      · rw [← hfirst]
        rfl
      · rw [if_neg h.last_ne_first]
        rfl

/-- A loop of `erase(Thread*)` that finds nothing came to null first. -/
theorem runsToNull_of_eraseFind {prev : ThreadPtr}
    (hfind : eraseFind sizeofThread t fuel p prev = some none) : RunsToNull sizeofThread p t := by
  induction fuel generalizing p prev with
  | zero => exact absurd hfind (by simp [eraseFind])
  | succ fuel ih =>
      unfold eraseFind at hfind
      by_cases hp : p = 0
      · exact ⟨0, hp, fun i hi => absurd hi (Nat.not_lt_zero i)⟩
      · rw [if_neg hp] at hfind
        by_cases hpt : p = t
        · rw [if_pos hpt] at hfind
          exact absurd hfind (by simp)
        · rw [if_neg hpt] at hfind
          obtain ⟨n, hn, hbefore⟩ := ih hfind
          refine ⟨n + 1, hn, ?_⟩
          intro i hi
          cases i with
          | zero => exact hpt
          | succ i => exact hbefore i (by omega)

/-- A loop that starts at null ends, and finds nothing. -/
theorem eraseFind_of_null (hp : p = 0) (prev : ThreadPtr) :
    (∃ fuel, eraseFind sizeofThread t fuel p prev = some none)
      ∧ ∀ fuel r, eraseFind sizeofThread t fuel p prev = some r → r = none := by
  refine ⟨⟨1, if_pos hp⟩, ?_⟩
  intro fuel r hr
  cases fuel with
  | zero => exact absurd hr (by simp [eraseFind])
  | succ fuel =>
      unfold eraseFind at hr
      rw [if_pos hp] at hr
      exact (Option.some.inj hr).symm

/-- A loop that comes to null first ends, and finds nothing. -/
theorem RunsToNull.eraseFind (h : RunsToNull sizeofThread p t) (prev : ThreadPtr) :
    (∃ fuel, eraseFind sizeofThread t fuel p prev = some none)
      ∧ ∀ fuel r, eraseFind sizeofThread t fuel p prev = some r → r = none := by
  obtain ⟨n, hn, hbefore⟩ := h
  induction n generalizing p prev with
  | zero => exact eraseFind_of_null hn prev
  | succ n ih =>
      by_cases hp : p = 0
      · exact eraseFind_of_null hp prev
      · have hpt : p ≠ t := hbefore 0 (by omega)
        obtain ⟨⟨fuel, hfuel⟩, hall⟩ := ih (p := (p + sizeofThread) % 2 ^ 64) p hn
          (fun i hi => hbefore (i + 1) (by omega))
        refine ⟨⟨fuel + 1, ?_⟩, ?_⟩
        · unfold ThreadQueue.eraseFind
          rw [if_neg hp, if_neg hpt]
          exact hfuel
        · intro fuel r hr
          cases fuel with
          | zero => exact absurd hr (by simp [ThreadQueue.eraseFind])
          | succ fuel =>
              unfold ThreadQueue.eraseFind at hr
              rw [if_neg hp, if_neg hpt] at hr
              exact hall fuel r hr

/-- The thread behind one of the queue, null behind the last. -/
theorem Refines.next_eq_zero_iff (h : Refines k (a ++ t :: b)) : k.next t = 0 ↔ t = k.last := by
  obtain ⟨m, _, hsuf⟩ := h.seg.split
  have hm : m = t := hsuf.start
  rw [h.last_eq]
  cases b with
  | nil =>
      rw [List.getLastD_concat]
      exact ⟨fun _ => rfl, fun _ => hsuf.2⟩
  | cons x rest =>
      have hx : k.next t = x := hsuf.2.start
      have hmem : x ∈ a ++ t :: x :: rest :=
        List.mem_append_right a (List.mem_cons_of_mem t List.mem_cons_self)
      have hx0 : x ≠ 0 := fun h0 => h.nonnull (h0 ▸ hmem)
      have hlast : (a ++ t :: x :: rest).getLastD 0 ∈ x :: rest := by
        rw [List.getLastD_eq_getLast?,
          List.getLast?_append_of_ne_nil a (List.cons_ne_nil t _), List.getLast?_cons_cons]
        have hget : (x :: rest).getLast? = some (rest.getLast?.getD x) := List.getLast?_cons
        rw [hget]
        exact List.mem_of_getLast? hget
      constructor
      · intro h0
        exact absurd (hx.symm.trans h0) hx0
      · intro heq
        rw [← heq] at hlast
        exact absurd hlast (List.nodup_cons.mp (List.nodup_append.mp h.nodup).2.1).1

theorem ThreadQueue.Iterator.Valid.split {pos : Iterator} (hpos : pos.Valid k) (h : Refines k queue) :
    ∃ a t b, queue = a ++ t :: b ∧ pos = ⟨t, a.getLastD 0⟩ := by
  induction hpos with
  | begin hfirst =>
      cases queue with
      | nil => exact absurd h.seg hfirst
      | cons t rest => exact ⟨[], t, rest, rfl, by rw [ThreadQueue.begin, h.toChain.first_cons]; rfl⟩
  | advance _ hnext ih =>
      obtain ⟨a, t, b, hqueue, hpos⟩ := ih
      subst hpos
      rw [hqueue] at h
      obtain ⟨m, _, hsuf⟩ := h.seg.split
      cases b with
      | nil => exact absurd hsuf.2 hnext
      | cons x rest =>
          refine ⟨a ++ [t], x, rest, ?_, ?_⟩
          · rw [hqueue, List.append_assoc]
            rfl
          · rw [List.getLastD_concat, Iterator.advance]
            exact congrArg (Iterator.mk · t) hsuf.2.start

/-- Behind the first thread, `erase(pos)` unlinks as the search does. -/
theorem eraseAt_behind (h : Refines k (a ++ p :: t :: b)) :
    (ThreadQueue.eraseAt k ⟨t, p⟩).1 = takePreferred k t p := by
  have hp : p ≠ 0 := by
    intro h0
    apply h.nonnull
    rw [← h0]
    exact List.mem_append_right a List.mem_cons_self
  have hsplit : a ++ p :: t :: b = (a ++ [p]) ++ t :: b := by simp
  rw [hsplit] at h
  unfold ThreadQueue.eraseAt takePreferred
  simp only [if_neg hp, if_pos hp]
  by_cases hlast : k.next t = 0
  · have hif : t = (k.setNext p (k.next t)).last := h.next_eq_zero_iff.mp hlast
    simp only [if_pos hlast, if_pos hif]
    rfl
  · have hif : ¬ t = (k.setNext p (k.next t)).last := fun heq => hlast (h.next_eq_zero_iff.mpr heq)
    simp only [if_neg hlast, if_neg hif]

/-- Without its first thread the list is its tail. -/
theorem erase_split (h : (a ++ t :: b).Nodup) : (a ++ t :: b).erase t = a ++ b := by
  have hta : t ∉ a := fun hmem => (List.nodup_append.mp h).2.2 t hmem t List.mem_cons_self rfl
  rw [List.erase_append_right _ hta, List.erase_cons_head]

theorem Refines.eraseAt {pos : Iterator} (h : Refines k queue) (hpos : pos.Valid k)
    (hlen : queue.length ≠ 1) :
    Refines (ThreadQueue.eraseAt k pos).1 (queue.erase pos.thread) := by
  obtain ⟨a, t, b, hqueue, hpos⟩ := hpos.split h
  subst hqueue hpos
  rw [erase_split h.nodup]
  rcases List.eq_nil_or_concat a with ha | ⟨a', p, ha⟩
  · -- the first branch leaves `last` alone, which is right when a thread is left
    subst ha
    have hb : b ≠ [] := by
      intro hb
      rw [hb] at hlen
      exact hlen rfl
    obtain ⟨x, rest, rfl⟩ := List.exists_cons_of_ne_nil hb
    have htq : t ∉ x :: rest := (List.nodup_cons.mp h.nodup).1
    refine h.dropFirst ?_ rfl ?_
    · intro y hy
      have hyt : y ≠ t := fun heq => htq (heq ▸ hy)
      show ((k.setFirst (k.next t)).setNext t 0).next y = k.next y
      simp [hyt]
    · rw [if_neg h.last_ne_first]
      rfl
  · rw [List.concat_eq_append] at ha
    subst ha
    rw [List.getLastD_concat]
    rw [List.append_assoc] at h ⊢
    rw [eraseAt_behind h]
    exact h.takePreferred_behind

/-- `erase(Thread*)` of the first thread. -/
theorem Refines.erase_first (h : Refines k (t :: queue)) {found : Bool}
    (hrun : ThreadQueue.erase fuel sizeofThread k t = some (k', found)) :
    Refines k' queue ∧ found = true := by
  have hfirst := h.toChain.first_cons
  have ht : t ≠ 0 := fun h0 => h.nonnull (by rw [← h0]; exact List.mem_cons_self)
  unfold ThreadQueue.erase at hrun
  cases fuel with
  | zero => exact absurd hrun (by simp [eraseFind])
  | succ fuel =>
      have hfind : eraseFind sizeofThread t (fuel + 1) k.first 0 = some (some 0) := by
        unfold eraseFind
        rw [hfirst, if_neg ht, if_pos rfl]
      rw [hfind] at hrun
      injection hrun with hrun
      injection hrun with hk hfound
      refine ⟨?_, hfound.symm⟩
      rw [← hk]
      simp only [if_pos]
      refine h.dropFirst ?_ ?_ ?_
      · intro x _
        split <;> rfl
      · split <;> rfl
      · show Kernel.last (if k.last = t then _ else _) = _
        split <;> rfl

theorem eraseFind_of_found (hrun : ThreadQueue.erase fuel sizeofThread k t = some (k', true)) :
    ∃ prev, eraseFind sizeofThread t fuel k.first 0 = some (some prev) := by
  unfold ThreadQueue.erase at hrun
  cases hfind : eraseFind sizeofThread t fuel k.first 0 with
  | none =>
      rw [hfind] at hrun
      exact absurd hrun (by simp)
  | some met =>
      cases met with
      | none =>
          rw [hfind] at hrun
          exact absurd hrun (by simp)
      | some prev => exact ⟨prev, rfl⟩

/-- The links and `first` after `erase(Thread*)` of a thread that is not the first
are the old ones. -/
theorem erase_notFirst {found : Bool} (hne : k.first ≠ t)
    (hrun : ThreadQueue.erase fuel sizeofThread k t = some (k', found)) :
    k'.next = k.next ∧ k'.first = k.first
      ∧ (found = false → k' = k ∧ eraseFind sizeofThread t fuel k.first 0 = some none) := by
  unfold ThreadQueue.erase at hrun
  cases hfind : eraseFind sizeofThread t fuel k.first 0 with
  | none =>
      rw [hfind] at hrun
      exact absurd hrun (by simp)
  | some met =>
      rw [hfind] at hrun
      cases met with
      | none =>
          injection hrun with hrun
          injection hrun with hk _
          subst hk
          exact ⟨rfl, rfl, fun _ => ⟨rfl, rfl⟩⟩
      | some prev =>
          injection hrun with hrun
          injection hrun with hk hfound
          have hprev : prev ≠ 0 := by
            rcases Chain.eraseFind_first hfind with hmet | hmet
            · exact absurd hmet.1 hne
            · exact hmet
          simp only [if_neg hprev] at hk
          subst hk
          refine ⟨?_, ?_, fun hfalse => absurd (hfound.trans hfalse) (by simp)⟩
          · split <;> rfl
          · split <;> rfl

end Operations

/-! ## §4. Runs. -/

section Runs

variable {sizeofThread : Nat} {s s' : SizedQueue} {queue : List ThreadPtr} {c : QueueCall}
  {hist : List QueueCall}

theorem head_of_first (h : Refines s.kernel queue) {t : ThreadPtr} (ht : t ≠ 0) :
    queue.head? = some t ↔ s.kernel.first = t := by
  rw [h.first_eq]
  cases queue with
  | nil => exact ⟨fun hnone => absurd hnone (by simp), fun h0 => absurd h0.symm ht⟩
  | cons x rest => simp

/-- `erase(pos)` of the only thread does not empty the queue: `last` is not written. -/
theorem Refines.not_eraseAt_only {k : Kernel} {t : ThreadPtr} (h : Refines k [t])
    {pos : ThreadQueue.Iterator} (hpos : pos.Valid k) :
    ¬Refines (ThreadQueue.eraseAt k pos).1 ([t].erase pos.thread) := by
  intro hleft
  obtain ⟨a, x, b, hqueue, hxpos⟩ := hpos.split h
  have hax : a = [] ∧ x = t ∧ b = [] := by
    cases a with
    | nil =>
        injection hqueue with hx hb
        exact ⟨rfl, hx.symm, hb.symm⟩
    | cons y a => simp at hqueue
  obtain ⟨rfl, rfl, rfl⟩ := hax
  subst hxpos
  have hlast : (ThreadQueue.eraseAt k ⟨x, [].getLastD 0⟩).1.last = k.last := rfl
  have hempty : [x].erase x = [] := List.erase_cons_head x []
  rw [hempty] at hleft
  have hx0 : x = 0 := h.last_single.symm.trans (hlast.symm.trans hleft.last_nil)
  exact h.nonnull (by rw [hx0]; exact List.mem_cons_self)

/-- `erase(Thread*)` of a thread that is not the first writes no link: it erases rightly
exactly when the thread is not queued and the search ends at the null pointer. -/
theorem Refines.erase_notFirst_iff {k k' : Kernel} {t : ThreadPtr} {fuel : Nat} {found : Bool}
    (h : Refines k queue) (hfirst : k.first ≠ t)
    (hrun : ThreadQueue.erase fuel sizeofThread k t = some (k', found)) :
    Refines k' (queue.erase t) ∧ (found = true ↔ t ∈ queue)
      ↔ t ∉ queue ∧ RunsToNull sizeofThread (queue.headD 0) t := by
  obtain ⟨hnext, hfirst', hnull⟩ := erase_notFirst hfirst hrun
  constructor
  · intro ⟨href, hright⟩
    by_cases hmem : t ∈ queue
    · -- no link was written, so the thread is still queued
      exfalso
      have hqueued : k'.Queued t := by
        obtain ⟨h0, i, hi⟩ := (h.mem_iff (t := t)).mpr hmem
        refine ⟨h0, i, ?_⟩
        unfold Kernel.queueAt
        rw [hnext, hfirst']
        exact hi
      have hin : t ∈ queue.erase t := href.mem_iff.mp hqueued
      exact absurd hin (List.Nodup.not_mem_erase h.nodup)
    · have hfalse : found = false := Bool.eq_false_iff.mpr fun hf => hmem (hright.mp hf)
      refine ⟨hmem, ?_⟩
      rw [← h.first_eq]
      exact runsToNull_of_eraseFind (hnull hfalse).2
  · intro ⟨hmem, hnull'⟩
    rw [← h.first_eq] at hnull'
    -- the walk from `first` meets no node that counts as `t`
    have hfalse : found = false := by
      cases hf : found with
      | false => rfl
      | true =>
          obtain ⟨prev, hprev⟩ := eraseFind_of_found (hf ▸ hrun)
          exact absurd ((hnull'.eraseFind 0).2 fuel _ hprev) (by simp)
    obtain ⟨rfl, _⟩ := hnull hfalse
    refine ⟨?_, fun hf => absurd (hfalse.symm.trans hf) (by simp), fun hin => absurd hin hmem⟩
    rw [List.erase_of_not_mem hmem]
    exact h

/-- **Step lemma**: a proper call does to the queue what it does to the list, and
answers rightly, exactly when it keeps the links. -/
theorem step_refines_iff (h : Refines s.kernel queue) (hproper : c.Proper s.kernel queue)
    (hst : SizedQueue.Step sizeofThread s c s') :
    Refines s'.kernel (c.apply queue) ∧ c.Right queue ↔ c.KeepsLinks sizeofThread queue := by
  cases hst with
  | pushFront => exact ⟨fun _ => trivial, fun _ => ⟨h.pushFront hproper.1 hproper.2, trivial⟩⟩
  | pushBack => exact ⟨fun _ => trivial, fun _ => ⟨h.pushBack hproper.1 hproper.2, trivial⟩⟩
  | popFront =>
      refine ⟨fun _ => trivial, fun _ => ⟨?_, trivial⟩⟩
      obtain ⟨t, rest, rfl⟩ := List.exists_cons_of_ne_nil hproper
      exact h.popFront
  | @eraseAt pos =>
      have hpos : pos.Valid s.kernel := hproper
      refine ⟨fun hleft hlen => ?_, fun hlen => ⟨h.eraseAt hpos hlen, trivial⟩⟩
      obtain ⟨t, rfl⟩ := List.length_eq_one_iff.mp hlen
      exact h.not_eraseAt_only hpos hleft.1
  | @erase t found k' fuel hrun =>
      have ht : t ≠ 0 := hproper
      by_cases hfirst : s.kernel.first = t
      · -- the first thread
        refine ⟨fun _ => Or.inl ((head_of_first h ht).mpr hfirst), fun _ => ?_⟩
        cases queue with
        | nil => exact absurd (hfirst.symm.trans h.seg) ht
        | cons x rest =>
            obtain rfl : x = t := h.toChain.first_cons.symm.trans hfirst
            obtain ⟨href, hfound⟩ := h.erase_first hrun
            refine ⟨?_, fun _ => List.mem_cons_self, fun _ => hfound⟩
            show Refines k' ((x :: rest).erase x)
            rw [List.erase_cons_head]
            exact href
      · have hhead : queue.head? ≠ some t := fun hhead => hfirst ((head_of_first h ht).mp hhead)
        refine (h.erase_notFirst_iff hfirst hrun).trans ⟨Or.inr, fun hkeeps => ?_⟩
        exact hkeeps.resolve_left hhead

/-- A thread to erase that keeps the links: `erase(Thread*)` returns. -/
theorem erase_returns (h : Refines s.kernel queue) {t : ThreadPtr} (ht : t ≠ 0) {found : Bool}
    (hkeeps : (QueueCall.erase t found).KeepsLinks sizeofThread queue) :
    ∃ fuel, (ThreadQueue.erase fuel sizeofThread s.kernel t).isSome = true := by
  rcases hkeeps with hhead | ⟨_, hnull⟩
  · have hfirst := (head_of_first h ht).mp hhead
    have hfind : ThreadQueue.eraseFind sizeofThread t 1 s.kernel.first 0 = some (some 0) := by
      unfold ThreadQueue.eraseFind
      rw [hfirst, if_neg ht, if_pos rfl]
    refine ⟨1, ?_⟩
    unfold ThreadQueue.erase
    rw [hfind]
    rfl
  · rw [← h.first_eq] at hnull
    obtain ⟨fuel, hfind⟩ := (hnull.eraseFind 0).1
    refine ⟨fuel, ?_⟩
    unfold ThreadQueue.erase
    rw [hfind]
    rfl

/-- How many threads more a call leaves in the list. -/
def QueueCall.growth : QueueCall → Int
  | .pushFront _ => 1
  | .pushBack _ => 1
  | .popFront => -1
  | .erase _ found => if found then -1 else 0
  | .eraseAt _ => -1

/-- By how much a call moves `length`. -/
def QueueCall.shift : QueueCall → Int
  | .pushFront _ => 0
  | .pushBack _ => 1
  | .popFront => -1
  | .erase _ found => if found then -1 else 0
  | .eraseAt _ => 0

/-- How often `push_front` was called. -/
def pushFronts : List QueueCall → Nat
  | [] => 0
  | .pushFront _ :: hist => pushFronts hist + 1
  | _ :: hist => pushFronts hist

/-- How often `erase(iterator)` was called. -/
def iteratorErases : List QueueCall → Nat
  | [] => 0
  | .eraseAt _ :: hist => iteratorErases hist + 1
  | _ :: hist => iteratorErases hist

/-- What `length` counts: it misses the threads of `push_front` and keeps those of
`erase(iterator)`. -/
def counted (hist : List QueueCall) : Int :=
  (threadsOf hist).length - pushFronts hist + iteratorErases hist

theorem ofInt_eq_iff (m n : Int) :
    BitVec.ofInt 64 m = BitVec.ofInt 64 n ↔
      m % 18446744073709551616 = n % 18446744073709551616 := by
  rw [← BitVec.toNat_inj, BitVec.toNat_ofInt, BitVec.toNat_ofInt]
  omega

theorem step_length (hst : SizedQueue.Step sizeofThread s c s') :
    s'.length = s.length + BitVec.ofInt 64 c.shift := by
  cases hst with
  | pushFront => exact (BitVec.add_zero _).symm
  | pushBack => rfl
  | popFront => exact BitVec.sub_eq_add_neg _ _
  | @erase t found k' fuel hrun =>
      cases found with
      | true => exact BitVec.sub_eq_add_neg _ _
      | false => exact (BitVec.add_zero _).symm
  | eraseAt => exact (BitVec.add_zero _).symm

/-- The number of threads after a proper call that answers rightly. -/
theorem length_apply (h : Refines s.kernel queue) (hproper : c.Proper s.kernel queue)
    (hright : c.Right queue) : ((c.apply queue).length : Int) = queue.length + c.growth := by
  cases c with
  | pushFront t => exact Int.natCast_succ queue.length
  | pushBack t =>
      show ((queue ++ [t]).length : Int) = queue.length + 1
      rw [List.length_append]
      rfl
  | popFront =>
      obtain ⟨t, rest, rfl⟩ := List.exists_cons_of_ne_nil hproper
      show (rest.length : Int) = ((t :: rest).length : Int) + -1
      rw [List.length_cons]
      omega
  | erase t found =>
      show ((queue.erase t).length : Int) = queue.length + if found then -1 else 0
      cases found with
      | true =>
          have hmem : t ∈ queue := hright.mp rfl
          have hpos := List.length_pos_of_mem hmem
          rw [List.length_erase_of_mem hmem, if_pos rfl]
          omega
      | false =>
          have hmem : t ∉ queue := fun hmem => absurd (hright.mpr hmem) (by simp)
          rw [List.erase_of_not_mem hmem]
          exact (Int.add_zero _).symm
  | eraseAt pos =>
      obtain ⟨a, t, b, hqueue, hpos⟩ := ThreadQueue.Iterator.Valid.split hproper h
      have hmem : pos.thread ∈ queue := by
        rw [hqueue, hpos]
        exact List.mem_append_right a List.mem_cons_self
      have hlen := List.length_pos_of_mem hmem
      show ((queue.erase pos.thread).length : Int) = queue.length + -1
      rw [List.length_erase_of_mem hmem]
      omega

/-- A call moves `length` with what it counts. -/
theorem counted_step (h : Refines s.kernel (threadsOf hist))
    (hproper : c.Proper s.kernel (threadsOf hist)) (hright : c.Right (threadsOf hist)) :
    counted (c :: hist) = counted hist + c.shift := by
  have hlen : ((threadsOf (c :: hist)).length : Int) = (threadsOf hist).length + c.growth :=
    length_apply h hproper hright
  unfold counted
  rw [hlen]
  cases c with
  | pushFront t =>
      rw [show pushFronts (.pushFront t :: hist) = pushFronts hist + 1 from rfl,
        show iteratorErases (.pushFront t :: hist) = iteratorErases hist from rfl,
        QueueCall.growth, QueueCall.shift]
      omega
  | pushBack t =>
      show ((threadsOf hist).length : Int) + 1 - pushFronts hist + iteratorErases hist
        = (threadsOf hist).length - pushFronts hist + iteratorErases hist + 1
      omega
  | popFront =>
      show ((threadsOf hist).length : Int) + -1 - pushFronts hist + iteratorErases hist
        = (threadsOf hist).length - pushFronts hist + iteratorErases hist + -1
      omega
  | erase t found =>
      show ((threadsOf hist).length : Int) + (if found then -1 else 0) - pushFronts hist
          + iteratorErases hist
        = (threadsOf hist).length - pushFronts hist + iteratorErases hist + if found then -1 else 0
      omega
  | eraseAt pos =>
      rw [show pushFronts (.eraseAt pos :: hist) = pushFronts hist from rfl,
        show iteratorErases (.eraseAt pos :: hist) = iteratorErases hist + 1 from rfl,
        QueueCall.growth, QueueCall.shift]
      omega

end Runs

/-- The condition on a call: it is proper and keeps the links. -/
def QueueCall.Safe (sizeofThread : Nat) (hist : List QueueCall) (s : SizedQueue) (c : QueueCall) :
    Prop :=
  c.Proper s.kernel (threadsOf hist) ∧ c.KeepsLinks sizeofThread (threadsOf hist)

/-- **`ThreadQueue` is a list of threads** in every run from the empty queue whose
calls keep the links:

  1. the links lead through the threads of the list, and `last` is its last one;
  2. every `erase(Thread*)` returned whether its thread was queued;
  3. `size()` is the number of queued threads exactly when `push_front` and
     `erase(iterator)` were called equally often;
  4. `erase(Thread*)` of a thread that keeps the links returns, and a proper call
     keeps 1 and 2 exactly when it keeps the links. -/
theorem thread_queue_refines_list {sizeofThread : Nat} {k₀ : Kernel} {hist : List QueueCall}
    {s : SizedQueue} (hinit : k₀.runnableQueue = ⟨0, 0⟩)
    (hrun : GuardedRun (SizedQueue.Step sizeofThread) (QueueCall.Safe sizeofThread) ⟨k₀, 0⟩ hist s) :
    Refines s.kernel (threadsOf hist)
      ∧ (∀ older c recent, hist = recent ++ c :: older → c.Right (threadsOf older))
      ∧ (s.size = BitVec.ofNat 64 (threadsOf hist).length
          ↔ pushFronts hist % 2 ^ 64 = iteratorErases hist % 2 ^ 64)
      ∧ (∀ t found, t ≠ 0 → (QueueCall.erase t found).KeepsLinks sizeofThread (threadsOf hist) →
          ∃ fuel, (ThreadQueue.erase fuel sizeofThread s.kernel t).isSome = true)
      ∧ ∀ c s', c.Proper s.kernel (threadsOf hist) → SizedQueue.Step sizeofThread s c s' →
          (Refines s'.kernel (threadsOf (c :: hist)) ∧ c.Right (threadsOf hist)
            ↔ c.KeepsLinks sizeofThread (threadsOf hist)) := by
  have hinv : Refines s.kernel (threadsOf hist)
      ∧ (∀ older c recent, hist = recent ++ c :: older → c.Right (threadsOf older))
      ∧ s.length = BitVec.ofInt 64 (counted hist) := by
    refine hrun.historyInvariant (fun hist s => Refines s.kernel (threadsOf hist)
      ∧ (∀ older c recent, hist = recent ++ c :: older → c.Right (threadsOf older))
      ∧ s.length = BitVec.ofInt 64 (counted hist)) ⟨?_, ?_, rfl⟩ ?_
    · have hfirst : k₀.first = 0 := congrArg ThreadQueue.first hinit
      have hlast : k₀.last = 0 := congrArg ThreadQueue.last hinit
      exact ⟨⟨hfirst, List.not_mem_nil, List.nodup_nil, Or.inl hlast⟩, hlast⟩
    · intro older c recent hnil
      exact absurd hnil (by simp)
    · intro hist s c s' ⟨href, hright, hsized⟩ hsafe hst
      obtain ⟨href', hc⟩ := (step_refines_iff href hsafe.1 hst).mpr hsafe.2
      refine ⟨href', ?_, ?_⟩
      rotate_left
      · rw [step_length hst, hsized, counted_step href hsafe.1 hc, BitVec.ofInt_add]
      intro older d recent hsplit
      cases recent with
      | nil =>
          injection hsplit with hcd hold
          rw [← hcd, ← hold]
          exact hc
      | cons e recent =>
          injection hsplit with _ hold
          exact hright older d recent hold
  obtain ⟨href, hright, hsized⟩ := hinv
  refine ⟨href, hright, ?_, fun t found ht hkeeps => erase_returns href ht hkeeps,
    fun c s' hproper hst => step_refines_iff href hproper hst⟩
  show s.length = _ ↔ _
  rw [hsized, ← BitVec.ofInt_natCast, ofInt_eq_iff]
  unfold counted
  omega

/-- No thread is queued. -/
def emptyQueue : Kernel :=
  Kernel.boot (fun t => Thread.create 0 t) (fun _ => 0) (fun _ => 0)

theorem emptyQueue_refines : Refines emptyQueue [] :=
  ⟨⟨rfl, List.not_mem_nil, List.nodup_nil, Or.inl rfl⟩, rfl⟩

/-- After `push_front` of a thread to the empty queue `size()` is 0. -/
theorem push_front_not_counted :
    ∃ s, Run (SizedQueue.Step 512) ⟨emptyQueue, 0⟩ [.pushFront 8] s
      ∧ QueueCall.Proper emptyQueue [] (.pushFront 8)
      ∧ Refines s.kernel [8] ∧ s.size = 0 :=
  ⟨_, .step .init .pushFront, ⟨by decide, by decide⟩,
    emptyQueue_refines.pushFront (by decide) (by decide), rfl⟩

/-- Two threads are pushed and the first is erased. -/
theorem thread_queue_refines_list_erase :
    ∃ s : SizedQueue, Refines s.kernel [16] ∧ s.size = 1 := by
  obtain ⟨s, hrun⟩ : ∃ s, GuardedRun (SizedQueue.Step 512) (QueueCall.Safe 512) ⟨emptyQueue, 0⟩
      [.erase 8 true, .pushBack 16, .pushBack 8] s := by
    refine ⟨_, .step (.step (.step .init ?_ .pushBack) ?_ .pushBack) ?_ (.erase 1 rfl)⟩
    · exact ⟨⟨by decide, by decide⟩, trivial⟩
    · exact ⟨⟨by decide, by decide⟩, trivial⟩
    · exact ⟨show 8 ≠ 0 by decide, Or.inl rfl⟩
  have hqueue := thread_queue_refines_list rfl hrun
  exact ⟨s, hqueue.1, hqueue.2.2.1.mpr rfl⟩

end MierOS.Tasking.Scheduling
