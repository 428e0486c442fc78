/-
  MierOS.Locking.RecursiveMutex — `RecursiveMutex` of `recursive_mutex.cpp` on
  top of `Semaphore` of `semaphore.cpp`.

  Every atomic operation and every plain read or write of a shared field is ONE
  STEP of one thread; threads are interleaved arbitrarily and their number is
  arbitrary.  A thread has a program point and the number of `lock`/`try_lock`
  calls it has not yet undone.

  The lock is a benaphore.  What is passed around is one TOKEN: it is nowhere
  (counter 0), with the thread that owns the lock, or in the semaphore as its
  permit: `f_current` plus the threads that lost the race in `acquire` and will
  put back what they took off.

  Main result: `recursive_mutex_exclusion`.
-/
import MierOS.Lib.Parties
import MierOS.Lib.Run
import Mathlib.Algebra.Order.BigOperators.Group.Finset
import Mathlib.Data.Fintype.Basic
import Mathlib.Algebra.BigOperators.Ring.Finset

namespace MierOS.Locking

open Lib
open Function (update)

/-! ## §1. The mutex and its threads. -/

/-- A program point of `lock`, `unlock` or `try_lock`: what the thread does
NEXT. -/
inductive Pc where
  /-- Outside the mutex code. -/
  | idle
  /-- `lock`: `atomic_fetch_add(&f_counter, 1)`. -/
  | lockAdd
  /-- `lock`, counter was positive: read `f_owner`. -/
  | lockCheck
  /-- `acquire`: `atomic_load(&f_current)` of the inner loop. -/
  | semLoad
  /-- `acquire`: `atomic_fetch_add(&f_current, -1)`. -/
  | semTake
  /-- `acquire`, nothing was there: `atomic_fetch_add(&f_current, 1)`. -/
  | semBack
  /-- `lock`: `f_owner = tid`. -/
  | lockOwner
  /-- `++f_recursion` of `lock` and `try_lock`: the read. -/
  | incLoad
  /-- `++f_recursion`: the write, `r` was read. -/
  | incStore (r : Nat)
  /-- `unlock`: the read of `f_owner` in the assertion. -/
  | unlockAssert
  /-- `--f_recursion`: the read. -/
  | decLoad
  /-- `--f_recursion`: the write, `r` was read. -/
  | decStore (r : Nat)
  /-- `unlock` with `r == 0`: `f_owner = 0`. -/
  | unlockOwner
  /-- `unlock`: `atomic_fetch_add(&f_counter, -1)`. -/
  | unlockSub (r : Nat)
  /-- `release`: `atomic_fetch_add(&f_current, 1)`. -/
  | release
  /-- `try_lock`: read `f_owner`. -/
  | tryRead
  /-- `try_lock` by the owner: `atomic_fetch_add(&f_counter, 1)`. -/
  | tryAdd
  /-- `try_lock`: `atomic_compare_exchange_strong(&f_counter, 0, 1)`. -/
  | tryCas
  /-- `try_lock`, exchange done: `f_owner = tid`. -/
  | tryOwner
  deriving Repr, DecidableEq

/-- A thread: its program point and its nesting depth, the `lock` and successful
`try_lock` calls that have returned less the `unlock` calls that have. -/
structure Thread where
  pc : Pc
  depth : Nat
  deriving Repr, DecidableEq

/-! What a program point says about the token, the owner field, the counter and
the recursion field. -/

namespace Pc

/-- The thread has the token although its `lock` or `try_lock` has not returned. -/
def acquired : Pc → Bool
  | .lockOwner | .tryOwner | .incLoad | .incStore _ => true
  | _ => false

/-- The thread has written its id to `f_owner` in the call under way. -/
def named : Pc → Bool
  | .incLoad | .incStore _ => true
  | _ => false

/-- The thread has set `f_owner` back to 0. -/
def cleared : Pc → Bool
  | .unlockSub 0 | .release => true
  | _ => false

/-- What the call under way has added to `f_counter` so far. -/
def pending : Pc → Int
  | .lockCheck | .lockOwner | .tryOwner | .incLoad | .incStore _ => 1
  | .release => -1
  | _ => 0

/-- The same with the calls that wait for the semaphore. -/
def counted : Pc → Int
  | .semLoad | .semTake | .semBack => 1
  | pc => pc.pending

/-- What the thread still owes to `f_current`. -/
def debt : Pc → Int
  | .semBack => 1
  | _ => 0

/-- The call under way has decremented `f_recursion`. -/
def decremented : Pc → Bool
  | .unlockOwner | .unlockSub _ | .release => true
  | _ => false

theorem debt_nonneg (pc : Pc) : 0 ≤ pc.debt := by
  cases pc <;> simp [debt]

/-- A call adds one to the counter at most. -/
theorem pending_le_one (pc : Pc) : pc.pending ≤ 1 := by
  cases pc <;> simp [pending]

theorem counted_le (pc : Pc) : pc.counted ≤ if pc ≠ .idle then 1 else 0 := by
  cases pc <;> simp [counted, pending]

end Pc

namespace Thread

/-- **The thread has the token**: from the step that wins it to the last step of
the outermost `unlock`. -/
def Owns (th : Thread) : Prop := 0 < th.depth ∨ th.pc.acquired = true

/-- `f_owner` is the id of this thread. -/
def Named (th : Thread) : Prop :=
  (0 < th.depth ∧ th.pc.cleared = false) ∨ th.pc.named = true

/-- The thread's part of `f_counter`. -/
def units (th : Thread) : Int := th.depth + th.pc.pending

/-- Its part with the calls that wait. -/
def counts (th : Thread) : Int := th.depth + th.pc.counted

/-- The depths a program point can be reached with. -/
def Shape (th : Thread) : Prop :=
  match th.pc with
  | .semLoad | .semTake | .semBack | .tryCas | .tryOwner => th.depth = 0
  | .tryAdd | .unlockAssert | .decLoad | .decStore _ => 0 < th.depth
  | .unlockOwner | .release => th.depth = 1
  | .unlockSub r => th.depth = r + 1
  | _ => True

/-- `f_recursion` as the thread that has the token sees it. -/
def RecursionOk (recursion : Nat) (th : Thread) : Prop :=
  match th.pc with
  | .unlockOwner | .release | .unlockSub _ => recursion + 1 = th.depth
  | .incStore r | .decStore r => r = recursion ∧ recursion = th.depth
  | _ => recursion = th.depth

theorem Named.owns {th : Thread} (h : th.Named) : th.Owns := by
  cases h with
  | inl hd => exact Or.inl hd.1
  | inr hn =>
      right
      cases hpc : th.pc <;> simp [hpc, Pc.named, Pc.acquired] at hn ⊢

theorem not_owns {pc : Pc} {depth : Nat} (hdepth : depth = 0) (hpc : pc.acquired = false) :
    ¬ Owns ⟨pc, depth⟩ := by
  intro ho
  cases ho with
  | inl hd => exact absurd hd (by show ¬ 0 < depth; omega)
  | inr ha => exact absurd ha (by show ¬ pc.acquired = true; simp [hpc])

theorem not_named {pc : Pc} {depth : Nat} (hclear : pc.cleared = true) (hpc : pc.named = false) :
    ¬ Named ⟨pc, depth⟩ := by
  intro hn
  cases hn with
  | inl hd => exact absurd hd.2 (by show ¬ pc.cleared = false; simp [hclear])
  | inr hn => exact absurd hn (by show ¬ pc.named = true; simp [hpc])

end Thread

/-- The fields of the mutex, those of its semaphore, and the threads. -/
structure Mutex (T : Type) where
  counter : Int
  recursion : Nat
  owner : Nat
  semCurrent : Int
  semMax : Int
  threads : T → Thread

/-- The public calls. -/
inductive Op where
  | lock
  | unlock
  | tryLock
  deriving Repr, DecidableEq

/-- A thread enters a call, or takes its next step. -/
inductive Event (T : Type) where
  | call (t : T) (op : Op)
  | step (t : T)
  deriving Repr, DecidableEq

namespace Mutex

variable {T : Type} [DecidableEq T]

/-- `RecursiveMutex()`, with `f_semaphore(1, 0)`. -/
def init : Mutex T where
  counter := 0
  recursion := 0
  owner := 0
  semCurrent := 0
  semMax := 1
  threads := fun _ => ⟨.idle, 0⟩

/-- Thread `t` becomes `th`. -/
def set (s : Mutex T) (t : T) (th : Thread) : Mutex T :=
  { s with threads := update s.threads t th }

/-- Thread `t` moves to `pc`. -/
def goto (s : Mutex T) (t : T) (pc : Pc) : Mutex T := s.set t ⟨pc, (s.threads t).depth⟩

/-- Entering a call.  A thread calls `unlock` only while it holds the lock. -/
def call (s : Mutex T) (t : T) (op : Op) : Option (Mutex T) :=
  if (s.threads t).pc ≠ .idle then none
  else
    match op with
    | .lock => some (s.goto t .lockAdd)
    | .unlock => if 0 < (s.threads t).depth then some (s.goto t .unlockAssert) else none
    | .tryLock => some (s.goto t .tryRead)

/-- The next atomic step of thread `t`; `tid` gives the id of a thread. -/
def step (tid : T → Nat) (s : Mutex T) (t : T) : Option (Mutex T) :=
  match (s.threads t).pc with
  | .idle => none
  | .lockAdd =>
      some { s.goto t (if s.counter > 0 then .lockCheck else .lockOwner) with
        counter := s.counter + 1 }
  | .lockCheck => some (s.goto t (if tid t ≠ s.owner then .semLoad else .lockOwner))
  | .semLoad => some (s.goto t (if s.semCurrent ≤ 0 then .semLoad else .semTake))
  | .semTake =>
      some { s.goto t (if s.semCurrent > 0 then .lockOwner else .semBack) with
        semCurrent := s.semCurrent - 1 }
  | .semBack => some { s.goto t .semLoad with semCurrent := s.semCurrent + 1 }
  | .lockOwner => some { s.goto t .incLoad with owner := tid t }
  | .incLoad => some (s.goto t (.incStore s.recursion))
  | .incStore r =>
      some { s.set t ⟨.idle, (s.threads t).depth + 1⟩ with recursion := r + 1 }
  | .unlockAssert => some (s.goto t .decLoad)
  | .decLoad => some (s.goto t (.decStore s.recursion))
  | .decStore r =>
      some { s.goto t (if r - 1 = 0 then .unlockOwner else .unlockSub (r - 1)) with
        recursion := r - 1 }
  | .unlockOwner => some { s.goto t (.unlockSub 0) with owner := 0 }
  | .unlockSub r =>
      let s' := { s with counter := s.counter - 1 }
      if s.counter > 1 then
        if r = 0 then some (s'.goto t .release)
        else some (s'.set t ⟨.idle, (s.threads t).depth - 1⟩)
      else some (s'.set t ⟨.idle, (s.threads t).depth - 1⟩)
  | .release =>
      some { s.set t ⟨.idle, (s.threads t).depth - 1⟩ with semCurrent := s.semCurrent + 1 }
  | .tryRead => some (s.goto t (if s.owner = tid t then .tryAdd else .tryCas))
  | .tryAdd => some { s.goto t .incLoad with counter := s.counter + 1 }
  | .tryCas =>
      if s.counter = 0 then some { s.goto t .tryOwner with counter := 1 }
      else some (s.goto t .idle)
  | .tryOwner => some { s.goto t .incLoad with owner := tid t }

/-- The mutex after an event. -/
def next (tid : T → Nat) (s : Mutex T) : Event T → Option (Mutex T)
  | .call t op => s.call t op
  | .step t => s.step tid t

/-- One event as a step relation. -/
def Step (tid : T → Nat) (s : Mutex T) (e : Event T) (s' : Mutex T) : Prop :=
  s.next tid e = some s'

/-! ## §2. The invariant. -/

section Invariant

variable [Fintype T]

/-- **The permit of the semaphore.** -/
def permit (s : Mutex T) : Int := s.semCurrent + ∑ t, (s.threads t).pc.debt

/-- **The mutex invariant.** -/
structure Inv (tid : T → Nat) (s : Mutex T) : Prop where
  unique : ∀ t u, (s.threads t).Owns → (s.threads u).Owns → t = u
  permit_range : s.permit = 0 ∨ s.permit = 1
  /-- A permit in the semaphore and a thread with the token exclude each other. -/
  permit_free : s.permit = 1 → ∀ t, ¬ (s.threads t).Owns
  /-- A released permit is announced in the counter. -/
  permit_counter : s.permit = 1 → 1 ≤ s.counter
  counter_nonneg : 0 ≤ s.counter
  counter_owned : ∀ t, (s.threads t).Owns → 1 ≤ s.counter ∧ (s.threads t).units ≤ s.counter
  owner_iff : ∀ t, s.owner = tid t ↔ (s.threads t).Named
  recursion_free : (∀ t, ¬ (s.threads t).Owns) → s.recursion = 0
  recursion_owned : ∀ t, (s.threads t).Owns → (s.threads t).RecursionOk s.recursion
  shape : ∀ t, (s.threads t).Shape
  max_eq : s.semMax = 1

variable {tid : T → Nat} {s s' : Mutex T} {t : T} {x : Thread}

theorem Inv.shape_update (h : s.Inv tid) (hth : s'.threads = update s.threads t x)
    (hshape : x.Shape) (u : T) : (s'.threads u).Shape := by
  obtain ⟨hself, hother⟩ := Parties.update_cases hth
  by_cases hut : u = t
  · rw [hut, hself]
    exact hshape
  · rw [hother u hut]
    exact h.shape u

/-- The permit after one thread moved. -/
theorem permit_of_update (hth : s'.threads = update s.threads t x) :
    s'.permit = s.permit + (s'.semCurrent - s.semCurrent)
      + (x.pc.debt - (s.threads t).pc.debt) := by
  unfold permit
  rw [Parties.sum_update (fun th : Thread => th.pc.debt) hth]
  omega

/-- No thread with the token, or a permit in the semaphore: nobody else is
disturbed by a step that moves neither. -/
theorem Inv.quiet (h : s.Inv tid) (hth : s'.threads = update s.threads t x)
    (hcounter : s.counter ≤ s'.counter) (howner : s'.owner = s.owner)
    (hrec : s'.recursion = s.recursion) (hmax : s'.semMax = s.semMax)
    (hpermit : s'.permit = s.permit) (howns : x.Owns ↔ (s.threads t).Owns)
    (hnamed : x.Named ↔ (s.threads t).Named) (hshape : x.Shape)
    (hrecOk : x.Owns → x.RecursionOk s.recursion) (hunits : x.Owns → x.units ≤ s'.counter) :
    s'.Inv tid := by
  obtain ⟨hself, hother⟩ := Parties.update_cases hth
  have hownsAll : ∀ u, (s'.threads u).Owns ↔ (s.threads u).Owns := by
    intro u
    by_cases hu : u = t
    · rw [hu, hself]
      exact howns
    · rw [hother u hu]
  constructor
  case unique =>
    intro u v hu hv
    exact h.unique u v ((hownsAll u).mp hu) ((hownsAll v).mp hv)
  case permit_range => rw [hpermit]; exact h.permit_range
  case permit_free =>
    intro hone u hu
    rw [hpermit] at hone
    exact h.permit_free hone u ((hownsAll u).mp hu)
  case permit_counter =>
    intro hone
    rw [hpermit] at hone
    exact le_trans (h.permit_counter hone) hcounter
  case counter_nonneg => exact le_trans h.counter_nonneg hcounter
  case counter_owned =>
    intro u hu
    have hold := h.counter_owned u ((hownsAll u).mp hu)
    refine ⟨le_trans hold.1 hcounter, ?_⟩
    by_cases hut : u = t
    · rw [hut, hself] at hu ⊢
      exact hunits hu
    · rw [hother u hut]
      exact le_trans hold.2 hcounter
  case owner_iff =>
    intro u
    rw [howner, h.owner_iff u]
    by_cases hut : u = t
    · rw [hut, hself]
      exact hnamed.symm
    · rw [hother u hut]
  case recursion_free =>
    intro hfree
    rw [hrec]
    exact h.recursion_free (fun u hu => hfree u ((hownsAll u).mpr hu))
  case recursion_owned =>
    intro u hu
    rw [hrec]
    by_cases hut : u = t
    · rw [hut, hself] at hu ⊢
      exact hrecOk hu
    · rw [hother u hut] at hu ⊢
      exact h.recursion_owned u hu
  case shape => exact h.shape_update hth hshape
  case max_eq => rw [hmax]; exact h.max_eq

/-- Away from the thread that has the token nothing is owned, so a step of that
thread only has to answer for itself. -/
theorem Inv.owned (h : s.Inv tid) (hth : s'.threads = update s.threads t x)
    (ht : (s.threads t).Owns) (hx : x.Owns) (hpermit : s'.permit = s.permit)
    (hmax : s'.semMax = s.semMax) (howner : s'.owner = tid t ↔ x.Named)
    (hothers : ∀ u, u ≠ t → s'.owner ≠ tid u) (hrec : x.RecursionOk s'.recursion)
    (hcounter : 1 ≤ s'.counter) (hunits : x.units ≤ s'.counter) (hshape : x.Shape) :
    s'.Inv tid := by
  obtain ⟨hself, hother⟩ := Parties.update_cases hth
  -- whoever has the token afterwards had it before, and that is `t`
  have honly : ∀ u, (s'.threads u).Owns → u = t := by
    intro u hu
    by_contra hut
    rw [hother u hut] at hu
    exact hut (h.unique u t hu ht)
  have hnone : s.permit ≠ 1 := fun hone => h.permit_free hone t ht
  constructor
  case unique =>
    intro u v hu hv
    rw [honly u hu, honly v hv]
  case permit_range => rw [hpermit]; exact h.permit_range
  case permit_free =>
    intro hone
    exact absurd (hpermit ▸ hone) hnone
  case permit_counter =>
    intro hone
    exact absurd (hpermit ▸ hone) hnone
  case counter_nonneg => omega
  case counter_owned =>
    intro u hu
    rw [honly u hu, hself]
    exact ⟨hcounter, hunits⟩
  case owner_iff =>
    intro u
    by_cases hut : u = t
    · rw [hut, hself]
      exact howner
    · constructor
      · intro heq
        exact absurd heq (hothers u hut)
      · intro hn
        exact absurd (honly u hn.owns) hut
  case recursion_free =>
    intro hfree
    exact absurd hx (hself ▸ hfree t)
  case recursion_owned =>
    intro u hu
    rw [honly u hu, hself]
    exact hrec
  case shape => exact h.shape_update hth hshape
  case max_eq => rw [hmax]; exact h.max_eq

/-- **The token is won**: by a thread that counted itself first, or from the
semaphore. -/
theorem Inv.acquire (h : s.Inv tid) (hth : s'.threads = update s.threads t x)
    (hfree : ∀ u, ¬ (s.threads u).Owns) (hpermit : s'.permit = 0)
    (howner : s'.owner = s.owner) (hrec : s'.recursion = s.recursion)
    (hmax : s'.semMax = s.semMax) (hcounter : 1 ≤ s'.counter)
    (hdepth : x.depth = 0) (hnamed : x.pc.named = false) (hshape : x.Shape)
    (hrecOk : x.RecursionOk 0) : s'.Inv tid := by
  obtain ⟨hself, hother⟩ := Parties.update_cases hth
  -- the token was with nobody, so it can only be with `t` now
  have honly : ∀ u, (s'.threads u).Owns → u = t := by
    intro u hu
    by_contra hut
    rw [hother u hut] at hu
    exact hfree u hu
  have hzero : s'.recursion = 0 := by
    rw [hrec]
    exact h.recursion_free hfree
  have hunnamed : ¬ x.Named := by
    intro hn
    cases hn with
    | inl hd => exact absurd hd.1 (by omega)
    | inr hn => exact absurd hn (by simp [hnamed])
  -- the depth is 0, so all the thread has added is the call under way
  have hunits : x.units ≤ 1 := by
    have hpending := x.pc.pending_le_one
    unfold Thread.units
    rw [hdepth]
    omega
  constructor
  case unique =>
    intro u v hu hv
    rw [honly u hu, honly v hv]
  case permit_range => exact Or.inl hpermit
  case permit_free => intro hone; omega
  case permit_counter => intro hone; omega
  case counter_nonneg => omega
  case counter_owned =>
    intro u hu
    rw [honly u hu, hself]
    exact ⟨hcounter, le_trans hunits hcounter⟩
  case owner_iff =>
    intro u
    rw [howner, h.owner_iff u]
    by_cases hut : u = t
    · rw [hut, hself]
      constructor
      · intro hn
        exact absurd hn.owns (hfree t)
      · intro hn
        exact absurd hn hunnamed
    · rw [hother u hut]
  case recursion_free =>
    intro hnone
    exact hzero
  case recursion_owned =>
    intro u hu
    rw [honly u hu, hself, hzero]
    exact hrecOk
  case shape => exact h.shape_update hth hshape
  case max_eq => rw [hmax]; exact h.max_eq

/-- **The token is given up**: to nobody, or into the semaphore. -/
theorem Inv.leave (h : s.Inv tid) (hth : s'.threads = update s.threads t x)
    (ht : (s.threads t).Owns) (hx : ¬ x.Owns) (hshape : x.Shape)
    (hcounter : 0 ≤ s'.counter) (hpermit : s'.permit = 0 ∨ (s'.permit = 1 ∧ 1 ≤ s'.counter))
    (howner : ∀ u, s'.owner ≠ tid u) (hrec : s'.recursion = 0)
    (hmax : s'.semMax = s.semMax) : s'.Inv tid := by
  obtain ⟨hself, hother⟩ := Parties.update_cases hth
  -- the only thread that had the token gives it up
  have hnobody : ∀ u, ¬ (s'.threads u).Owns := by
    intro u hu
    by_cases hut : u = t
    · rw [hut, hself] at hu
      exact hx hu
    · rw [hother u hut] at hu
      exact hut (h.unique u t hu ht)
  constructor
  case unique =>
    intro u v hu
    exact absurd hu (hnobody u)
  case permit_range =>
    cases hpermit with
    | inl h0 => exact Or.inl h0
    | inr h1 => exact Or.inr h1.1
  case permit_free => intro _ u; exact hnobody u
  case permit_counter => intro hone; omega
  case counter_nonneg => exact hcounter
  case counter_owned =>
    intro u hu
    exact absurd hu (hnobody u)
  case owner_iff =>
    intro u
    constructor
    · intro heq
      exact absurd heq (howner u)
    · intro hn
      exact absurd hn.owns (hnobody u)
  case recursion_free => intro _; exact hrec
  case recursion_owned =>
    intro u hu
    exact absurd hu (hnobody u)
  case shape => exact h.shape_update hth hshape
  case max_eq => rw [hmax]; exact h.max_eq

/-! ## §3. Every step keeps the invariant. -/

omit [DecidableEq T] in
theorem inv_init (hpos : ∀ t, tid t ≠ 0) : (init : Mutex T).Inv tid := by
  have hnobody : ∀ u, ¬ ((init : Mutex T).threads u).Owns := by
    intro u hu
    cases hu with
    | inl hd => exact absurd hd (by simp [init])
    | inr hacq => exact absurd hacq (by simp [init, Pc.acquired])
  -- no thread owes anything yet
  have hpermit : (init : Mutex T).permit = 0 := by
    simp [permit, init, Pc.debt]
  constructor
  case unique => intro u _ hu; exact absurd hu (hnobody u)
  case permit_range => exact Or.inl hpermit
  case permit_free => intro hone; omega
  case permit_counter => intro hone; omega
  case counter_nonneg => exact le_rfl
  case counter_owned => intro u hu; exact absurd hu (hnobody u)
  case owner_iff =>
    intro u
    constructor
    · intro heq
      exact absurd heq.symm (hpos u)
    · intro hn
      exact absurd hn.owns (hnobody u)
  case recursion_free => intro _; rfl
  case recursion_owned => intro u hu; exact absurd hu (hnobody u)
  case shape => intro u; trivial
  case max_eq => rfl

omit [DecidableEq T] [Fintype T] in
/-- A thread inside the mutex code, with its depth. -/
theorem thread_eq {pc : Pc} (hpc : (s.threads t).pc = pc) :
    s.threads t = ⟨pc, (s.threads t).depth⟩ := by
  rw [← hpc]

/-! ### What the invariant says at a program point. -/

omit [DecidableEq T] in
theorem Inv.shape_at (h : s.Inv tid) {pc : Pc} (hpc : (s.threads t).pc = pc) :
    Thread.Shape ⟨pc, (s.threads t).depth⟩ :=
  thread_eq hpc ▸ h.shape t

omit [DecidableEq T] in
theorem Inv.recursion_at (h : s.Inv tid) {pc : Pc} (hpc : (s.threads t).pc = pc)
    (ht : (s.threads t).Owns) : Thread.RecursionOk s.recursion ⟨pc, (s.threads t).depth⟩ :=
  thread_eq hpc ▸ h.recursion_owned t ht

omit [DecidableEq T] in
theorem Inv.units_at (h : s.Inv tid) {pc : Pc} (hpc : (s.threads t).pc = pc)
    (ht : (s.threads t).Owns) : ((s.threads t).depth : Int) + pc.pending ≤ s.counter := by
  have hunits := (h.counter_owned t ht).2
  unfold Thread.units at hunits
  rw [hpc] at hunits
  exact hunits

omit [DecidableEq T] in
/-- A thread inside the lock that has not cleared the owner field is in it. -/
theorem Inv.owner_at (h : s.Inv tid) {pc : Pc} (hpc : (s.threads t).pc = pc)
    (hdepth : 0 < (s.threads t).depth) (hclear : pc.cleared = false) : s.owner = tid t := by
  apply (h.owner_iff t).mpr
  left
  rw [hpc]
  exact ⟨hdepth, hclear⟩

omit [DecidableEq T] in
/-- No other thread is in the owner field. -/
theorem Inv.owner_ne (h : s.Inv tid) (ht : (s.threads t).Owns) {u : T} (hu : u ≠ t) :
    s.owner ≠ tid u := by
  intro heq
  exact hu (h.unique u t ((h.owner_iff u).mp heq).owns ht)

/-- The permit after a thread moved from `pc₀` to `pc`. -/
theorem permit_at {pc₀ pc : Pc} {depth : Nat} (hpc : (s.threads t).pc = pc₀)
    (hth : s'.threads = update s.threads t ⟨pc, depth⟩) :
    s'.permit = s.permit + (s'.semCurrent - s.semCurrent) + (pc.debt - pc₀.debt) := by
  rw [permit_of_update hth, hpc]

/-- It stays where neither the semaphore nor the debt of the thread changes. -/
theorem permit_kept {pc₀ pc : Pc} {depth : Nat} (hpc : (s.threads t).pc = pc₀)
    (hth : s'.threads = update s.threads t ⟨pc, depth⟩)
    (hsem : s'.semCurrent = s.semCurrent) (hdebt : pc.debt = pc₀.debt) :
    s'.permit = s.permit := by
  rw [permit_at hpc hth, hsem, hdebt]
  omega

/-- **A step that moves no token**: the two program points agree on who has it,
on the owner field and on the semaphore, and the counter does not fall. -/
theorem Inv.moves (h : s.Inv tid) {pc₀ : Pc} (pc : Pc) (hpc : (s.threads t).pc = pc₀)
    (hsame : pc.acquired = pc₀.acquired ∧ pc.named = pc₀.named ∧ pc.cleared = pc₀.cleared
      ∧ pc.debt = pc₀.debt)
    {c : Int} (hcounter : s.counter ≤ c)
    (hpending : pc.pending - pc₀.pending ≤ c - s.counter)
    (hshape : Thread.Shape ⟨pc, (s.threads t).depth⟩)
    (hrec : (s.threads t).Owns → Thread.RecursionOk s.recursion ⟨pc, (s.threads t).depth⟩) :
    ({ s.goto t pc with counter := c } : Mutex T).Inv tid := by
  -- what the invariant reads of a program point is the same before and after
  obtain ⟨hacq, hname, hclear, hdebt⟩ := hsame
  have howns : Thread.Owns ⟨pc, (s.threads t).depth⟩ ↔ (s.threads t).Owns := by
    unfold Thread.Owns
    rw [hpc, hacq]
  have hnamed : Thread.Named ⟨pc, (s.threads t).depth⟩ ↔ (s.threads t).Named := by
    unfold Thread.Named
    rw [hpc, hname, hclear]
  refine h.quiet (x := ⟨pc, (s.threads t).depth⟩) rfl hcounter rfl rfl rfl ?_ howns hnamed hshape
    (fun ho => hrec (howns.mp ho)) ?_
  · exact permit_kept hpc rfl rfl hdebt
  · intro ho
    have hold := h.units_at hpc (howns.mp ho)
    show ((s.threads t).depth : Int) + pc.pending ≤ c
    omega

omit [Fintype T] in
/-- What entering a call does. -/
theorem call_cases {op : Op} (hst : s.call t op = some s') :
    (s.threads t).pc = .idle ∧ ∃ pc, s' = s.goto t pc
      ∧ (pc = .lockAdd ∨ (pc = .unlockAssert ∧ 0 < (s.threads t).depth) ∨ pc = .tryRead) := by
  unfold call at hst
  by_cases hidle : (s.threads t).pc = .idle
  · rw [if_neg (not_not_intro hidle)] at hst
    refine ⟨hidle, ?_⟩
    cases op with
    | lock => exact ⟨.lockAdd, (Option.some.inj hst).symm, Or.inl rfl⟩
    | unlock =>
        dsimp only at hst
        split at hst
        · rename_i hdepth
          exact ⟨.unlockAssert, (Option.some.inj hst).symm, Or.inr (Or.inl ⟨rfl, hdepth⟩)⟩
        · cases hst
    | tryLock => exact ⟨.tryRead, (Option.some.inj hst).symm, Or.inr (Or.inr rfl)⟩
  · rw [if_pos hidle] at hst
    cases hst

theorem inv_call {op : Op} (h : s.Inv tid) (hst : s.call t op = some s') : s'.Inv tid := by
  obtain ⟨hidle, pc, rfl, hpc⟩ := call_cases hst
  have hrec := h.recursion_at hidle
  rcases hpc with rfl | ⟨rfl, hdepth⟩ | rfl
  · exact h.moves _ hidle (by decide) le_rfl (by simp [Pc.pending]) trivial hrec
  · exact h.moves _ hidle (by decide) le_rfl (by simp [Pc.pending]) hdepth hrec
  · exact h.moves _ hidle (by decide) le_rfl (by simp [Pc.pending]) trivial hrec

omit [DecidableEq T] in
/-- A counter that is not positive: the token is nowhere. -/
theorem Inv.free_of_counter (h : s.Inv tid) (hc : s.counter ≤ 0) :
    (∀ u, ¬ (s.threads u).Owns) ∧ s.permit = 0 := by
  refine ⟨fun u hu => ?_, ?_⟩
  · have := (h.counter_owned u hu).1
    omega
  · cases h.permit_range with
    | inl h0 => exact h0
    | inr h1 =>
        have := h.permit_counter h1
        omega

omit [DecidableEq T] in
theorem Inv.permit_owned (h : s.Inv tid) (ht : (s.threads t).Owns) : s.permit = 0 := by
  cases h.permit_range with
  | inl h0 => exact h0
  | inr h1 => exact absurd ht (h.permit_free h1 t)

omit [DecidableEq T] in
/-- `f_current` never exceeds the permit. -/
theorem semCurrent_le_permit (s : Mutex T) : s.semCurrent ≤ s.permit := by
  have hsum : 0 ≤ ∑ t, (s.threads t).pc.debt :=
    Finset.sum_nonneg (fun t _ => (s.threads t).pc.debt_nonneg)
  unfold permit
  omega

theorem inv_lockAdd (h : s.Inv tid) (hpc : (s.threads t).pc = .lockAdd) :
    ({ s.goto t (if s.counter > 0 then .lockCheck else .lockOwner) with
        counter := s.counter + 1 } : Mutex T).Inv tid := by
  by_cases hc : s.counter > 0
  · rw [if_pos hc]
    have hrec := h.recursion_at hpc
    exact h.moves _ hpc (by decide) (by omega) (by simp [Pc.pending]) trivial hrec
  · -- the counter was 0: the token was nowhere, and this thread has it now
    rw [if_neg hc]
    obtain ⟨hfree, hpermit⟩ := h.free_of_counter (by omega)
    have hdepth : (s.threads t).depth = 0 := by
      by_contra hne
      exact hfree t (Or.inl (by omega))
    refine h.acquire (x := ⟨.lockOwner, (s.threads t).depth⟩) rfl hfree ?_ rfl rfl rfl ?_ hdepth
      rfl trivial hdepth.symm
    · exact Eq.trans (permit_kept hpc rfl rfl rfl) hpermit
    · have hzero := h.counter_nonneg
      show 1 ≤ s.counter + 1
      omega

theorem inv_lockCheck (h : s.Inv tid) (hpc : (s.threads t).pc = .lockCheck) :
    (s.goto t (if tid t ≠ s.owner then .semLoad else .lockOwner)).Inv tid := by
  have hrec := h.recursion_at hpc
  by_cases howner : s.owner = tid t
  · -- a nested `lock`: the owner field names this thread, so it has the token
    rw [if_neg (not_not_intro howner.symm)]
    have hnamed := (h.owner_iff t).mp howner
    have hdepth : 0 < (s.threads t).depth := by
      cases hnamed with
      | inl hd => exact hd.1
      | inr hn => exact absurd hn (by simp [hpc, Pc.named])
    have hunits := h.units_at hpc hnamed.owns
    exact h.owned (x := ⟨.lockOwner, (s.threads t).depth⟩) rfl hnamed.owns (Or.inl hdepth)
      (permit_kept hpc rfl rfl rfl) rfl ⟨fun _ => Or.inl ⟨hdepth, rfl⟩, fun _ => howner⟩
      (fun u hu => h.owner_ne hnamed.owns hu) (hrec hnamed.owns)
      (h.counter_owned t hnamed.owns).1 hunits trivial
  · rw [if_pos (fun heq => howner heq.symm)]
    -- a thread that the owner field does not name holds nothing
    have hdepth : (s.threads t).depth = 0 := by
      by_contra hne
      exact howner (h.owner_at hpc (by omega) rfl)
    exact h.moves _ hpc (by decide) le_rfl (by simp [Pc.pending]) hdepth hrec

theorem inv_semLoad (h : s.Inv tid) (hpc : (s.threads t).pc = .semLoad) :
    (s.goto t (if s.semCurrent ≤ 0 then .semLoad else .semTake)).Inv tid := by
  have hrec := h.recursion_at hpc
  have hshape : (s.threads t).depth = 0 := h.shape_at hpc
  split
  · exact h.moves _ hpc (by decide) le_rfl (by simp [Pc.pending]) hshape hrec
  · exact h.moves _ hpc (by decide) le_rfl (by simp [Pc.pending]) hshape hrec

theorem inv_semTake (h : s.Inv tid) (hpc : (s.threads t).pc = .semTake) :
    ({ s.goto t (if s.semCurrent > 0 then .lockOwner else .semBack) with
        semCurrent := s.semCurrent - 1 } : Mutex T).Inv tid := by
  have hshape : (s.threads t).depth = 0 := h.shape_at hpc
  by_cases hcur : s.semCurrent > 0
  · -- `tmp > 0`: the permit was there, and this thread has it now
    rw [if_pos hcur]
    -- `f_current` is positive and the permit is at most 1
    have hone : s.permit = 1 := by
      have hle := semCurrent_le_permit s
      cases h.permit_range with
      | inl h0 => omega
      | inr h1 => exact h1
    refine h.acquire (x := ⟨.lockOwner, (s.threads t).depth⟩) rfl (h.permit_free hone) ?_ rfl rfl
      rfl (h.permit_counter hone) hshape rfl trivial hshape.symm
    rw [permit_at hpc rfl, hone]
    show 1 + (s.semCurrent - 1 - s.semCurrent) + (Pc.debt .lockOwner - Pc.debt .semTake) = 0
    simp [Pc.debt]
  · -- `tmp <= 0`: nothing was taken, the thread owes what it subtracted
    rw [if_neg hcur]
    have hnot : ¬ (s.threads t).Owns := thread_eq hpc ▸ Thread.not_owns hshape rfl
    have hnotx : ¬ Thread.Owns ⟨.semBack, (s.threads t).depth⟩ := Thread.not_owns hshape rfl
    refine h.quiet (x := ⟨.semBack, (s.threads t).depth⟩) rfl le_rfl rfl rfl rfl ?_
      (iff_of_false hnotx hnot) (iff_of_false (fun hn => hnotx hn.owns) (fun hn => hnot hn.owns))
      hshape (fun ho => absurd ho hnotx) (fun ho => absurd ho hnotx)
    rw [permit_at hpc rfl]
    show s.permit + (s.semCurrent - 1 - s.semCurrent) + (Pc.debt .semBack - Pc.debt .semTake) = _
    simp only [Pc.debt]
    omega

theorem inv_semBack (h : s.Inv tid) (hpc : (s.threads t).pc = .semBack) :
    ({ s.goto t .semLoad with semCurrent := s.semCurrent + 1 } : Mutex T).Inv tid := by
  have hshape : (s.threads t).depth = 0 := h.shape_at hpc
  have hnot : ¬ (s.threads t).Owns := thread_eq hpc ▸ Thread.not_owns hshape rfl
  have hnotx : ¬ Thread.Owns ⟨.semLoad, (s.threads t).depth⟩ := Thread.not_owns hshape rfl
  refine h.quiet (x := ⟨.semLoad, (s.threads t).depth⟩) rfl le_rfl rfl rfl rfl ?_
    (iff_of_false hnotx hnot) (iff_of_false (fun hn => hnotx hn.owns) (fun hn => hnot hn.owns))
    hshape (fun ho => absurd ho hnotx) (fun ho => absurd ho hnotx)
  -- the debt is paid back with what is added to `f_current`
  rw [permit_at hpc rfl]
  show s.permit + (s.semCurrent + 1 - s.semCurrent) + (Pc.debt .semLoad - Pc.debt .semBack) = _
  simp only [Pc.debt]
  omega

/-- `f_owner = tid` by the thread that has the token, in `lock` and `try_lock`. -/
theorem inv_writeOwner (hinj : Function.Injective tid) (h : s.Inv tid) {pc : Pc}
    (hpc : (s.threads t).pc = pc) (hcase : pc = .lockOwner ∨ pc = .tryOwner) :
    ({ s.goto t .incLoad with owner := tid t } : Mutex T).Inv tid := by
  have hfacts : pc.acquired = true ∧ pc.debt = 0 ∧ pc.pending = 1 := by
    cases hcase with
    | inl heq => rw [heq]; decide
    | inr heq => rw [heq]; decide
  have ht : (s.threads t).Owns := Or.inr (by rw [hpc]; exact hfacts.1)
  have hrec : s.recursion = (s.threads t).depth := by
    cases hcase with
    | inl heq => exact h.recursion_at (hpc.trans heq) ht
    | inr heq => exact h.recursion_at (hpc.trans heq) ht
  have hunits := h.units_at hpc ht
  rw [hfacts.2.2] at hunits
  exact h.owned (x := ⟨.incLoad, (s.threads t).depth⟩) rfl ht (Or.inr rfl)
    (permit_kept hpc rfl rfl hfacts.2.1.symm) rfl ⟨fun _ => Or.inr rfl, fun _ => rfl⟩
    (fun u hu heq => hu (hinj heq.symm)) hrec (h.counter_owned t ht).1 hunits trivial

theorem inv_incLoad (h : s.Inv tid) (hpc : (s.threads t).pc = .incLoad) :
    (s.goto t (.incStore s.recursion)).Inv tid := by
  -- nobody else writes `f_recursion` before this thread does
  have hread : (s.threads t).Owns →
      Thread.RecursionOk s.recursion ⟨.incStore s.recursion, (s.threads t).depth⟩ :=
    fun ho => ⟨rfl, h.recursion_at hpc ho⟩
  exact h.moves (.incStore s.recursion) hpc ⟨rfl, rfl, rfl, rfl⟩ le_rfl (by simp [Pc.pending])
    trivial hread

/-- The write of `++f_recursion`, after which the call has returned. -/
theorem inv_incStore (h : s.Inv tid) {r : Nat} (hpc : (s.threads t).pc = .incStore r) :
    ({ s.set t ⟨.idle, (s.threads t).depth + 1⟩ with recursion := r + 1 } : Mutex T).Inv tid := by
  have ht : (s.threads t).Owns := Or.inr (by rw [hpc]; rfl)
  have hnamed : s.owner = tid t := (h.owner_iff t).mpr (Or.inr (by rw [hpc]; rfl))
  have hrec : r = s.recursion ∧ s.recursion = (s.threads t).depth := h.recursion_at hpc ht
  have hunits : ((s.threads t).depth : Int) + 1 ≤ s.counter := h.units_at hpc ht
  refine h.owned (x := ⟨.idle, (s.threads t).depth + 1⟩) rfl ht (Or.inl (Nat.succ_pos _))
    (permit_kept hpc rfl rfl rfl) rfl ⟨fun _ => Or.inl ⟨Nat.succ_pos _, rfl⟩, fun _ => hnamed⟩
    (fun u hu => h.owner_ne ht hu) ?_ (h.counter_owned t ht).1 ?_ trivial
  · show r + 1 = (s.threads t).depth + 1
    omega
  · show (((s.threads t).depth + 1 : Nat) : Int) + 0 ≤ s.counter
    push_cast
    omega

theorem inv_unlockAssert (h : s.Inv tid) (hpc : (s.threads t).pc = .unlockAssert) :
    (s.goto t .decLoad).Inv tid := by
  have hdepth : 0 < (s.threads t).depth := h.shape_at hpc
  have hrec := h.recursion_at hpc
  exact h.moves _ hpc (by decide) le_rfl (by simp [Pc.pending]) hdepth hrec

theorem inv_decLoad (h : s.Inv tid) (hpc : (s.threads t).pc = .decLoad) :
    (s.goto t (.decStore s.recursion)).Inv tid := by
  have hdepth : 0 < (s.threads t).depth := h.shape_at hpc
  -- the value read is still there when it is written back
  have hread : (s.threads t).Owns →
      Thread.RecursionOk s.recursion ⟨.decStore s.recursion, (s.threads t).depth⟩ :=
    fun ho => ⟨rfl, h.recursion_at hpc ho⟩
  exact h.moves (.decStore s.recursion) hpc ⟨rfl, rfl, rfl, rfl⟩ le_rfl (by simp [Pc.pending])
    hdepth hread

/-- The write of `--f_recursion`. -/
theorem inv_decStore (h : s.Inv tid) {r : Nat} (hpc : (s.threads t).pc = .decStore r) :
    ({ s.goto t (if r - 1 = 0 then .unlockOwner else .unlockSub (r - 1)) with
        recursion := r - 1 } : Mutex T).Inv tid := by
  have hdepth : 0 < (s.threads t).depth := h.shape_at hpc
  have ht : (s.threads t).Owns := Or.inl hdepth
  have hrec : r = s.recursion ∧ s.recursion = (s.threads t).depth := h.recursion_at hpc ht
  have hnamed : s.owner = tid t := h.owner_at hpc hdepth rfl
  have hunits : ((s.threads t).depth : Int) + 0 ≤ s.counter := h.units_at hpc ht
  have hcount := (h.counter_owned t ht).1
  by_cases hr : r - 1 = 0
  · -- the outermost `unlock` clears the owner field next
    rw [if_pos hr]
    refine h.owned (x := ⟨.unlockOwner, (s.threads t).depth⟩) rfl ht (Or.inl hdepth)
      (permit_kept hpc rfl rfl rfl) rfl ⟨fun _ => Or.inl ⟨hdepth, rfl⟩, fun _ => hnamed⟩
      (fun u hu => h.owner_ne ht hu) ?_ hcount hunits ?_
    · show r - 1 + 1 = (s.threads t).depth
      omega
    · show (s.threads t).depth = 1
      omega
  · rw [if_neg hr]
    -- an inner `unlock` leaves the owner field alone
    have hcleared : Pc.cleared (.unlockSub (r - 1)) = false := by
      cases hpred : r - 1 with
      | zero => exact absurd hpred hr
      | succ n => rfl
    refine h.owned (x := ⟨.unlockSub (r - 1), (s.threads t).depth⟩) rfl ht (Or.inl hdepth)
      (permit_kept hpc rfl rfl rfl) rfl ⟨fun _ => Or.inl ⟨hdepth, hcleared⟩, fun _ => hnamed⟩
      (fun u hu => h.owner_ne ht hu) ?_ hcount hunits ?_
    · show r - 1 + 1 = (s.threads t).depth
      omega
    · show (s.threads t).depth = r - 1 + 1
      omega

theorem inv_unlockOwner (hpos : ∀ t, tid t ≠ 0) (h : s.Inv tid)
    (hpc : (s.threads t).pc = .unlockOwner) :
    ({ s.goto t (.unlockSub 0) with owner := 0 } : Mutex T).Inv tid := by
  have hdepth : (s.threads t).depth = 1 := h.shape_at hpc
  have ht : (s.threads t).Owns := Or.inl (by omega)
  have hx : 0 < (s.threads t).depth := by omega
  have hunnamed : ¬ Thread.Named ⟨.unlockSub 0, (s.threads t).depth⟩ := Thread.not_named rfl rfl
  have hrec := h.recursion_at hpc ht
  have hunits := h.units_at hpc ht
  exact h.owned (x := ⟨.unlockSub 0, (s.threads t).depth⟩) rfl ht (Or.inl hx)
    (permit_kept hpc rfl rfl rfl) rfl
    (iff_of_false (fun heq => hpos t heq.symm) hunnamed) (fun u _ heq => hpos u heq.symm)
    hrec (h.counter_owned t ht).1 hunits hdepth

omit [DecidableEq T] in
/-- A thread at `unlockSub 0` or `release` has cleared the owner field, so it
names nobody. -/
theorem Inv.owner_cleared (h : s.Inv tid) (ht : (s.threads t).Owns)
    (hname : ¬ (s.threads t).Named) (u : T) : s.owner ≠ tid u := by
  by_cases hut : u = t
  · rw [hut]
    exact fun heq => hname ((h.owner_iff t).mp heq)
  · exact h.owner_ne ht hut

/-- The decrement of the counter in `unlock`, in its three outcomes: an inner
`unlock` returns, the outermost one returns or has a permit to release. -/
theorem inv_unlockSub (h : s.Inv tid) {r : Nat} (hpc : (s.threads t).pc = .unlockSub r)
    (hst : s.step tid t = some s') : s'.Inv tid := by
  have hdepth : (s.threads t).depth = r + 1 := h.shape_at hpc
  have hx : 0 < (s.threads t).depth := by omega
  have ht : (s.threads t).Owns := Or.inl hx
  have hunits : ((s.threads t).depth : Int) + 0 ≤ s.counter := h.units_at hpc ht
  have hrec : s.recursion + 1 = (s.threads t).depth := h.recursion_at hpc ht
  simp only [step, hpc] at hst
  cases hr : r with
  | zero =>
      subst hr
      have hname : ¬ (s.threads t).Named := thread_eq hpc ▸ Thread.not_named rfl rfl
      by_cases hc : s.counter > 1
      · -- others have counted themselves: the token goes into the semaphore next
        rw [if_pos hc, if_pos rfl] at hst
        injection hst with hst
        subst hst
        refine h.owned (x := ⟨.release, (s.threads t).depth⟩) rfl ht (Or.inl hx)
          (permit_kept hpc rfl rfl rfl) rfl
          (iff_of_false (h.owner_cleared ht hname t) (Thread.not_named rfl rfl))
          (fun u _ => h.owner_cleared ht hname u) hrec ?_ ?_ hdepth
        · show 1 ≤ s.counter - 1
          omega
        · show ((s.threads t).depth : Int) + -1 ≤ s.counter - 1
          omega
      · -- nobody waits: the token is nowhere again
        rw [if_neg hc] at hst
        injection hst with hst
        subst hst
        refine h.leave (x := ⟨.idle, (s.threads t).depth - 1⟩) rfl ht
          (Thread.not_owns (by omega) rfl) trivial ?_ (Or.inl ?_) (h.owner_cleared ht hname) ?_ rfl
        · show 0 ≤ s.counter - 1
          omega
        · exact Eq.trans (permit_kept hpc rfl rfl rfl) (h.permit_owned ht)
        · show s.recursion = 0
          omega
  | succ n =>
      subst hr
      have hnamed : s.owner = tid t := h.owner_at hpc hx rfl
      -- an inner `unlock` leaves the owner's other units in the counter
      have hc : s.counter > 1 := by omega
      rw [if_pos hc, if_neg (Nat.succ_ne_zero n)] at hst
      injection hst with hst
      subst hst
      have hx' : 0 < (s.threads t).depth - 1 := by omega
      refine h.owned (x := ⟨.idle, (s.threads t).depth - 1⟩) rfl ht (Or.inl hx')
        (permit_kept hpc rfl rfl rfl) rfl ⟨fun _ => Or.inl ⟨hx', rfl⟩, fun _ => hnamed⟩
        (fun u hu => h.owner_ne ht hu) ?_ ?_ ?_ trivial
      · show s.recursion = (s.threads t).depth - 1
        omega
      · show 1 ≤ s.counter - 1
        omega
      · show (((s.threads t).depth - 1 : Nat) : Int) + 0 ≤ s.counter - 1
        omega

/-- **`release` puts the token into the semaphore.** -/
theorem inv_release (h : s.Inv tid) (hpc : (s.threads t).pc = .release) :
    ({ s.set t ⟨.idle, (s.threads t).depth - 1⟩ with
        semCurrent := s.semCurrent + 1 } : Mutex T).Inv tid := by
  have hdepth : (s.threads t).depth = 1 := h.shape_at hpc
  have ht : (s.threads t).Owns := Or.inl (by omega)
  have hname : ¬ (s.threads t).Named := thread_eq hpc ▸ Thread.not_named rfl rfl
  have hrec : s.recursion + 1 = (s.threads t).depth := h.recursion_at hpc ht
  refine h.leave (x := ⟨.idle, (s.threads t).depth - 1⟩) rfl ht
    (Thread.not_owns (by omega) rfl) trivial h.counter_nonneg
    (Or.inr ⟨?_, (h.counter_owned t ht).1⟩) (h.owner_cleared ht hname) ?_ rfl
  · rw [permit_at hpc rfl, h.permit_owned ht]
    show 0 + (s.semCurrent + 1 - s.semCurrent) + (Pc.debt .idle - Pc.debt .release) = 1
    simp only [Pc.debt]
    omega
  · show s.recursion = 0
    omega

theorem inv_tryRead (h : s.Inv tid) (hpc : (s.threads t).pc = .tryRead) :
    (s.goto t (if s.owner = tid t then .tryAdd else .tryCas)).Inv tid := by
  have hrec := h.recursion_at hpc
  by_cases howner : s.owner = tid t
  · rw [if_pos howner]
    -- at `tryRead` a thread is in the owner field only through its depth
    have hdepth : 0 < (s.threads t).depth := by
      cases (h.owner_iff t).mp howner with
      | inl hd => exact hd.1
      | inr hn => exact absurd hn (by simp [hpc, Pc.named])
    exact h.moves _ hpc (by decide) le_rfl (by simp [Pc.pending]) hdepth hrec
  · rw [if_neg howner]
    have hdepth : (s.threads t).depth = 0 := by
      by_contra hne
      exact howner (h.owner_at hpc (by omega) rfl)
    exact h.moves _ hpc (by decide) le_rfl (by simp [Pc.pending]) hdepth hrec

/-- A nested `try_lock` counts itself and goes on to `++f_recursion`. -/
theorem inv_tryAdd (h : s.Inv tid) (hpc : (s.threads t).pc = .tryAdd) :
    ({ s.goto t .incLoad with counter := s.counter + 1 } : Mutex T).Inv tid := by
  have hdepth : 0 < (s.threads t).depth := h.shape_at hpc
  have ht : (s.threads t).Owns := Or.inl hdepth
  have hnamed : s.owner = tid t := h.owner_at hpc hdepth rfl
  have hunits : ((s.threads t).depth : Int) + 0 ≤ s.counter := h.units_at hpc ht
  have hrec := h.recursion_at hpc ht
  refine h.owned (x := ⟨.incLoad, (s.threads t).depth⟩) rfl ht (Or.inl hdepth)
    (permit_kept hpc rfl rfl rfl) rfl ⟨fun _ => Or.inr rfl, fun _ => hnamed⟩
    (fun u hu => h.owner_ne ht hu) hrec ?_ ?_ trivial
  · show 1 ≤ s.counter + 1
    omega
  · show ((s.threads t).depth : Int) + 1 ≤ s.counter + 1
    omega

/-- The exchange of `try_lock`: it succeeds only on a token that is nowhere. -/
theorem inv_tryCas (h : s.Inv tid) (hpc : (s.threads t).pc = .tryCas)
    (hst : s.step tid t = some s') : s'.Inv tid := by
  have hshape : (s.threads t).depth = 0 := h.shape_at hpc
  simp only [step, hpc] at hst
  by_cases hc : s.counter = 0
  · rw [if_pos hc] at hst
    injection hst with hst
    subst hst
    obtain ⟨hfree, hpermit⟩ := h.free_of_counter (by omega)
    exact h.acquire (x := ⟨.tryOwner, (s.threads t).depth⟩) rfl hfree
      (Eq.trans (permit_kept hpc rfl rfl rfl) hpermit) rfl rfl rfl le_rfl hshape rfl hshape
      hshape.symm
  · rw [if_neg hc] at hst
    injection hst with hst
    have hrec := h.recursion_at hpc
    exact hst ▸ h.moves .idle hpc (by decide) le_rfl (by simp [Pc.pending]) trivial hrec

/-- **Every step of every thread keeps the invariant**: one case per program
point. -/
theorem inv_step (hinj : Function.Injective tid) (hpos : ∀ t, tid t ≠ 0) (h : s.Inv tid)
    (hst : s.step tid t = some s') : s'.Inv tid := by
  cases hpc : (s.threads t).pc with
  | idle => exact absurd hst (by simp [step, hpc])
  | lockAdd =>
      simp only [step, hpc, Option.some.injEq] at hst
      exact hst ▸ inv_lockAdd h hpc
  | lockCheck =>
      simp only [step, hpc, Option.some.injEq] at hst
      exact hst ▸ inv_lockCheck h hpc
  | semLoad =>
      simp only [step, hpc, Option.some.injEq] at hst
      exact hst ▸ inv_semLoad h hpc
  | semTake =>
      simp only [step, hpc, Option.some.injEq] at hst
      exact hst ▸ inv_semTake h hpc
  | semBack =>
      simp only [step, hpc, Option.some.injEq] at hst
      exact hst ▸ inv_semBack h hpc
  | lockOwner =>
      simp only [step, hpc, Option.some.injEq] at hst
      exact hst ▸ inv_writeOwner hinj h hpc (Or.inl rfl)
  | incLoad =>
      simp only [step, hpc, Option.some.injEq] at hst
      exact hst ▸ inv_incLoad h hpc
  | incStore r =>
      simp only [step, hpc, Option.some.injEq] at hst
      exact hst ▸ inv_incStore h hpc
  | unlockAssert =>
      simp only [step, hpc, Option.some.injEq] at hst
      exact hst ▸ inv_unlockAssert h hpc
  | decLoad =>
      simp only [step, hpc, Option.some.injEq] at hst
      exact hst ▸ inv_decLoad h hpc
  | decStore r =>
      simp only [step, hpc, Option.some.injEq] at hst
      exact hst ▸ inv_decStore h hpc
  | unlockOwner =>
      simp only [step, hpc, Option.some.injEq] at hst
      exact hst ▸ inv_unlockOwner hpos h hpc
  | unlockSub r => exact inv_unlockSub h hpc hst
  | release =>
      simp only [step, hpc, Option.some.injEq] at hst
      exact hst ▸ inv_release h hpc
  | tryRead =>
      simp only [step, hpc, Option.some.injEq] at hst
      exact hst ▸ inv_tryRead h hpc
  | tryAdd =>
      simp only [step, hpc, Option.some.injEq] at hst
      exact hst ▸ inv_tryAdd h hpc
  | tryCas => exact inv_tryCas h hpc hst
  | tryOwner =>
      simp only [step, hpc, Option.some.injEq] at hst
      exact hst ▸ inv_writeOwner hinj h hpc (Or.inr rfl)

omit [Fintype T] in
/-- A thread that moves to `pc`, and the counter with it. -/
theorem counts_of_goto {pc : Pc}
    (hth : s'.threads = update s.threads t ⟨pc, (s.threads t).depth⟩)
    (hcounter : s'.counter = s.counter + (pc.counted - (s.threads t).pc.counted)) :
    ∃ x, s'.threads = update s.threads t x
      ∧ s'.counter = s.counter + (x.counts - (s.threads t).counts) := by
  refine ⟨_, hth, ?_⟩
  rw [hcounter]
  unfold Thread.counts
  dsimp only
  omega

/-- **What a step adds to `f_counter`** it adds to the part of its thread. -/
theorem Inv.counts_step (h : s.Inv tid) (hst : s.step tid t = some s') :
    ∃ x, s'.threads = update s.threads t x
      ∧ s'.counter = s.counter + (x.counts - (s.threads t).counts) := by
  cases hpc : (s.threads t).pc with
  | idle => exact absurd hst (by simp [step, hpc])
  | lockAdd | lockCheck | semLoad | semTake | tryRead =>
      simp only [step, hpc, Option.some.injEq] at hst
      subst hst
      refine counts_of_goto rfl ?_
      split <;> simp [goto, set, Pc.counted, Pc.pending, hpc]
  | semBack | lockOwner | incLoad | unlockAssert | decLoad | unlockOwner | tryAdd | tryOwner =>
      simp only [step, hpc, Option.some.injEq] at hst
      subst hst
      exact counts_of_goto rfl (by simp [goto, set, Pc.counted, Pc.pending, hpc])
  | incStore r =>
      simp only [step, hpc, Option.some.injEq] at hst
      subst hst
      refine ⟨_, rfl, ?_⟩
      simp [set, Thread.counts, Pc.counted, Pc.pending, hpc]
  | decStore r =>
      simp only [step, hpc, Option.some.injEq] at hst
      subst hst
      refine counts_of_goto rfl ?_
      split <;> simp [goto, set, Pc.counted, Pc.pending, hpc]
  | unlockSub r =>
      -- the depth falls here, or it is left to `release`
      have hdepth : (s.threads t).depth = r + 1 := h.shape_at hpc
      simp only [step, hpc] at hst
      split at hst
      · split at hst
        · obtain rfl := Option.some.inj hst
          refine counts_of_goto rfl ?_
          simp [goto, set, Pc.counted, Pc.pending, hpc, Int.sub_eq_add_neg]
        · obtain rfl := Option.some.inj hst
          refine ⟨_, rfl, ?_⟩
          simp only [set, Thread.counts, Pc.counted, Pc.pending, hpc, hdepth]
          omega
      · obtain rfl := Option.some.inj hst
        refine ⟨_, rfl, ?_⟩
        simp only [set, Thread.counts, Pc.counted, Pc.pending, hpc, hdepth]
        omega
  | release =>
      have hdepth : (s.threads t).depth = 1 := h.shape_at hpc
      simp only [step, hpc, Option.some.injEq] at hst
      subst hst
      refine ⟨_, rfl, ?_⟩
      simp [set, Thread.counts, Pc.counted, Pc.pending, hpc, hdepth]
  | tryCas =>
      simp only [step, hpc] at hst
      by_cases hzero : s.counter = 0
      · rw [if_pos hzero] at hst
        obtain rfl := Option.some.inj hst
        exact counts_of_goto rfl (by simp [Pc.counted, Pc.pending, hpc, hzero])
      · rw [if_neg hzero] at hst
        obtain rfl := Option.some.inj hst
        exact counts_of_goto rfl (by simp [goto, set, Pc.counted, Pc.pending, hpc])

theorem run_inv (hinj : Function.Injective tid) (hpos : ∀ t, tid t ≠ 0) {hist : List (Event T)}
    (hrun : Run (Step tid) init hist s) : s.Inv tid := by
  refine hrun.invariant (Inv tid) (inv_init hpos) ?_
  intro s e s' h hst
  cases e with
  | call t op => exact inv_call h hst
  | step t => exact inv_step hinj hpos h hst

/-- **The counter** is what the threads have put on it. -/
theorem run_counter (hinj : Function.Injective tid) (hpos : ∀ t, tid t ≠ 0)
    {hist : List (Event T)} (hrun : Run (Step tid) init hist s) :
    s.counter = ∑ t, (s.threads t).counts := by
  induction hrun with
  | init => simp [init, Thread.counts, Pc.counted, Pc.pending]
  | @step _ s s' e hprev hst ih =>
      have hcounts : ∃ t x, s'.threads = update s.threads t x
          ∧ s'.counter = s.counter + (x.counts - (s.threads t).counts) := by
        cases e with
        | step t => exact ⟨t, (run_inv hinj hpos hprev).counts_step hst⟩
        | call t op =>
            -- a call that is entered has put nothing on the counter yet
            obtain ⟨hidle, pc, rfl, hpc⟩ := call_cases hst
            refine ⟨t, counts_of_goto rfl ?_⟩
            rcases hpc with rfl | ⟨rfl, -⟩ | rfl <;>
              simp [goto, set, hidle, Pc.counted, Pc.pending]
      obtain ⟨t, x, hth, hmoved⟩ := hcounts
      rw [Parties.sum_update Thread.counts hth, hmoved, ih]

omit [DecidableEq T] in
/-- Every call under way counts one at most. -/
theorem sum_counts_le (s : Mutex T) : ∑ t, (s.threads t).counts
    ≤ ∑ t, ((s.threads t).depth : Int)
      + (Finset.univ.filter fun t => (s.threads t).pc ≠ .idle).card := by
  rw [Finset.card_filter, Nat.cast_sum, ← Finset.sum_add_distrib]
  refine Finset.sum_le_sum fun t _ => ?_
  have hle := (s.threads t).pc.counted_le
  unfold Thread.counts
  push_cast
  omega

end Invariant

end Mutex

open Mutex

/-- **Mutual exclusion.**  For any number of threads with distinct non-zero ids
and any interleaving of their steps: at most one thread is between a successful
`lock` or `try_lock` and the return of its outermost `unlock`; `f_recursion` is
that thread's nesting depth, already less the `unlock` under way once that has
decremented it; the assertion of `unlock` holds; `release` is never called on a
semaphore that has its permit; and `f_counter` is at most the nesting depths and
the calls under way together, so that 32 bits are enough while these are. -/
theorem recursive_mutex_exclusion {T : Type} [Fintype T] [DecidableEq T] (tid : T → Nat)
    (hinj : Function.Injective tid) (hpos : ∀ t, tid t ≠ 0)
    {hist : List (Event T)} {s : Mutex T} (hrun : Run (Step tid) init hist s) :
    (∀ t u, 0 < (s.threads t).depth → 0 < (s.threads u).depth → t = u)
      ∧ (∀ t, 0 < (s.threads t).depth →
          (s.recursion = if (s.threads t).pc.decremented then (s.threads t).depth - 1
            else (s.threads t).depth))
      ∧ (∀ t, (s.threads t).pc = .unlockAssert → s.owner = tid t)
      ∧ (∀ t, (s.threads t).pc = .release → s.semCurrent < s.semMax)
      ∧ 0 ≤ s.counter ∧ s.counter ≤ ∑ t, ((s.threads t).depth : Int)
          + (Finset.univ.filter fun t => (s.threads t).pc ≠ .idle).card := by
  have hinv := run_inv hinj hpos hrun
  refine ⟨?_, ?_, ?_, ?_, hinv.counter_nonneg,
    run_counter hinj hpos hrun ▸ sum_counts_le s⟩
  · intro t u ht hu
    exact hinv.unique t u (Or.inl ht) (Or.inl hu)
  · intro t ht
    have hrec := hinv.recursion_owned t (Or.inl ht)
    unfold Thread.RecursionOk at hrec
    split at hrec <;> rename_i hpc <;> simp only [hpc, Pc.decremented] <;> simp <;> omega
  · intro t hpc
    exact hinv.owner_at hpc (hinv.shape_at hpc) rfl
  · intro t hpc
    have hdepth : (s.threads t).depth = 1 := hinv.shape_at hpc
    have hpermit := hinv.permit_owned (t := t) (Or.inl (by omega))
    have hle := semCurrent_le_permit s
    have hmax := hinv.max_eq
    omega

/-- Two threads: one locks, the other counts itself, and the first reaches
`release` in its `unlock`. -/
theorem recursive_mutex_exclusion_contended :
    ∃ (hist : List (Event (Fin 2))) (s : Mutex (Fin 2)),
      Run (Step (fun t : Fin 2 => t.val + 1)) init hist s
        ∧ (s.threads 0).pc = .release ∧ (s.threads 1).pc = .lockCheck
        ∧ s.semCurrent < s.semMax := by
  have hex : ∃ s : Mutex (Fin 2), Run (Step (fun t : Fin 2 => t.val + 1)) init
        ([.call 0 .lock, .step 0, .step 0, .step 0, .step 0, .call 1 .lock, .step 1,
          .call 0 .unlock, .step 0, .step 0, .step 0, .step 0, .step 0].reverse ++ []) s
      ∧ (s.threads 0).pc = .release ∧ (s.threads 1).pc = .lockCheck :=
    ⟨_, Run.of_foldlM (f := Mutex.next (fun t : Fin 2 => t.val + 1)) _ Run.init rfl, rfl, rfl⟩
  obtain ⟨s, hrun, hrelease, hcheck⟩ := hex
  have hinj : Function.Injective (fun t : Fin 2 => t.val + 1) := by
    intro a b hab
    exact Fin.ext (Nat.succ.inj hab)
  exact ⟨_, s, hrun, hrelease, hcheck,
    (recursive_mutex_exclusion _ hinj (fun t => Nat.succ_ne_zero t.val) hrun).2.2.2.1 0 hrelease⟩

end MierOS.Locking
