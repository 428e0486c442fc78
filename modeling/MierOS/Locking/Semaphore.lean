/-
  MierOS.Locking.Semaphore
  **`Semaphore` OF `semaphore.cpp`**: acquire, release, and what the counter
  says while threads are half way through them.

  Every atomic operation is ONE STEP of one thread and threads are interleaved
  arbitrarily.  `acquire` decrements first and asks afterwards: a thread that
  found no permit has taken one off all the same and puts it back in a step of
  its own, and until then the counter is one too low for everybody.

    permits in the semaphore  =  `f_current` + threads about to undo theirs

  is what the invariant counts.  The counter stays between minus the number of
  threads and the maximum (`current_range`); a thread has a kernel stack in the
  2 GiB above `KERNEL_START`, so the `atomic_int` does not wrap and is an
  integer here.

  Main result: `semaphore_conserves_permits`.
-/
import MierOS.Lib.Parties
import MierOS.Lib.Run
import Mathlib.Algebra.Order.BigOperators.Group.Finset
import Mathlib.Algebra.BigOperators.Ring.Finset

namespace MierOS.Locking

open Lib

namespace Semaphore

/-! ## §1. The atomic steps. -/

/-- What a thread does next. -/
inductive Pc where
  /-- Outside the semaphore code. -/
  | idle
  /-- `acquire`: `atomic_load(&f_current)` of the inner loop. -/
  | load
  /-- `acquire`: `atomic_fetch_add(&f_current, -1)`. -/
  | take
  /-- `acquire`, nothing was there: `atomic_fetch_add(&f_current, 1)`. -/
  | back
  /-- `release`: `atomic_fetch_add(&f_current, 1)`. -/
  | release
  /-- `release`: the assertion reads `f_max`; `val` was in `f_current`. -/
  | check (val : Int)
  deriving Repr, DecidableEq

/-- A thread: its program point, and the `acquire` calls that got a permit less
the `release` calls that gave one back. -/
structure Thread where
  pc : Pc
  held : Nat
  deriving Repr, DecidableEq

end Semaphore

/-- `f_current` and `f_max`, and the threads. -/
structure Semaphore (T : Type) where
  current : Int
  max : Int
  threads : T → Semaphore.Thread

namespace Semaphore

/-- The public calls. -/
inductive Op where
  | acquire
  | release
  deriving Repr, DecidableEq

/-- A thread enters a call, or takes its next step. -/
inductive Event (T : Type) where
  | call (t : T) (op : Op)
  | step (t : T)
  deriving Repr, DecidableEq

variable {T : Type} [DecidableEq T]

/-- `Semaphore(amount)`. -/
def init (amount : Int) : Semaphore T where
  current := amount
  max := amount
  threads := fun _ => ⟨.idle, 0⟩

/-- Thread `t` becomes `th`. -/
def set (s : Semaphore T) (t : T) (th : Thread) : Semaphore T :=
  { s with threads := Function.update s.threads t th }

/-- Thread `t` moves to `pc`. -/
def goto (s : Semaphore T) (t : T) (pc : Pc) : Semaphore T :=
  s.set t ⟨pc, (s.threads t).held⟩

@[simp] theorem goto_current (s : Semaphore T) (t : T) (pc : Pc) :
    (s.goto t pc).current = s.current := rfl

/-- Entering a call.  A thread calls `release` only while it holds a permit. -/
def call (s : Semaphore T) (t : T) (op : Op) : Option (Semaphore T) :=
  if (s.threads t).pc ≠ .idle then none
  else
    match op with
    | .acquire => some (s.goto t .load)
    | .release => if 0 < (s.threads t).held then some (s.goto t .release) else none

/-- The next atomic step of thread `t`. -/
def step (s : Semaphore T) (t : T) : Option (Semaphore T) :=
  match (s.threads t).pc with
  | .idle => none
  | .load => some (s.goto t (if s.current ≤ 0 then .load else .take))
  | .take =>
      let tmp := s.current
      -- only the old value decides; the decrement has happened either way
      if tmp > 0 then
        some { s.set t ⟨.idle, (s.threads t).held + 1⟩ with current := s.current - 1 }
      else some { s.goto t .back with current := s.current - 1 }
  | .back => some { s.goto t .load with current := s.current + 1 }
  | .release =>
      let val := s.current
      some { s.set t ⟨.check val, (s.threads t).held - 1⟩ with current := s.current + 1 }
  -- `ASSERT_F(val < f_max, ...)` writes a message and goes on
  | .check _ => some (s.goto t .idle)

/-- The semaphore after an event. -/
def next (s : Semaphore T) : Event T → Option (Semaphore T)
  | .call t op => s.call t op
  | .step t => s.step t

/-- One event as a step relation. -/
def Step (s : Semaphore T) (e : Event T) (s' : Semaphore T) : Prop :=
  s.next e = some s'

/-! ## §2. What a step does to one thread and the counter. -/

namespace Thread

/-- The decrement a thread has still to undo. -/
def debt (th : Thread) : Int := if th.pc = .back then 1 else 0

/-- What a thread has taken off the counter: its permits, and a decrement that
brought none. -/
def taken (th : Thread) : Int := th.held + th.debt

/-- A thread about to release has a permit, and the value `release` read leaves
room for one more. -/
def Shape (max : Int) (th : Thread) : Prop :=
  match th.pc with
  | .release => 0 < th.held
  | .check val => val < max
  | _ => True

theorem debt_nonneg (th : Thread) : 0 ≤ th.debt := by
  unfold debt
  split <;> omega

theorem taken_nonneg (th : Thread) : 0 ≤ th.taken := by
  have hdebt := th.debt_nonneg
  unfold taken
  omega

theorem held_le_taken (th : Thread) : (th.held : Int) ≤ th.taken := by
  have hdebt := th.debt_nonneg
  unfold taken
  omega

end Thread

/-- **What an event can do**: one thread moves, and the counter moves by what
that thread takes off or puts back.  A decrement that brings a permit finds one
there. -/
structure Moves (s s' : Semaphore T) (t : T) (x : Thread) : Prop where
  threads_eq : s'.threads = Function.update s.threads t x
  max_eq : s'.max = s.max
  current_eq : s'.current = s.current + ((s.threads t).taken - x.taken)
  held_le : (x.held : Int) ≤ (s.threads t).held ∨
    (x.held = (s.threads t).held + 1 ∧ 0 < s.current)
  shape : (s.threads t).Shape s.max → x.Shape s.max ∨
    (x.pc = .check s.current ∧ (s.threads t).held = x.held + 1)

theorem moves_call {s s' : Semaphore T} {t : T} {op : Op} (hc : s.call t op = some s') :
    ∃ x, Moves s s' t x := by
  unfold call at hc
  split at hc
  · cases hc
  · rename_i hidle
    have hpc : (s.threads t).pc = .idle := not_not.mp hidle
    cases op with
    | acquire =>
        simp only [Option.some.injEq] at hc
        subst hc
        refine ⟨⟨.load, (s.threads t).held⟩, rfl, rfl, ?_, Or.inl le_rfl, fun _ => Or.inl trivial⟩
        simp [Thread.taken, Thread.debt, hpc]
    | release =>
        by_cases hheld : 0 < (s.threads t).held
        · rw [if_pos hheld] at hc
          injection hc with hc
          subst hc
          refine ⟨⟨.release, (s.threads t).held⟩, rfl, rfl, ?_, Or.inl le_rfl,
            fun _ => Or.inl hheld⟩
          simp [Thread.taken, Thread.debt, hpc]
        · rw [if_neg hheld] at hc
          cases hc

theorem moves_step {s s' : Semaphore T} {t : T} (hst : s.step t = some s')
    (hshape : (s.threads t).Shape s.max) : ∃ x, Moves s s' t x := by
  unfold step at hst
  cases hpc : (s.threads t).pc with
  | idle => simp [hpc] at hst
  | load =>
      simp only [hpc, Option.some.injEq] at hst
      subst hst
      by_cases hnone : s.current ≤ 0
      · refine ⟨⟨.load, (s.threads t).held⟩, by rw [if_pos hnone]; rfl, rfl, ?_, Or.inl le_rfl,
          fun _ => Or.inl trivial⟩
        simp [Thread.taken, Thread.debt, hpc]
      · refine ⟨⟨.take, (s.threads t).held⟩, by rw [if_neg hnone]; rfl, rfl, ?_, Or.inl le_rfl,
          fun _ => Or.inl trivial⟩
        simp [Thread.taken, Thread.debt, hpc]
  | take =>
      simp only [hpc] at hst
      by_cases hsome : s.current > 0
      · -- the permit is this thread's
        rw [if_pos hsome] at hst
        injection hst with hst
        subst hst
        refine ⟨⟨.idle, (s.threads t).held + 1⟩, rfl, rfl, ?_, Or.inr ⟨rfl, hsome⟩,
          fun _ => Or.inl trivial⟩
        simp [Thread.taken, Thread.debt, hpc]
        omega
      · -- nothing was there: the decrement becomes a debt
        rw [if_neg hsome] at hst
        injection hst with hst
        subst hst
        refine ⟨⟨.back, (s.threads t).held⟩, rfl, rfl, ?_, Or.inl le_rfl, fun _ => Or.inl trivial⟩
        simp [Thread.taken, Thread.debt, hpc]
        omega
  | back =>
      simp only [hpc, Option.some.injEq] at hst
      subst hst
      refine ⟨⟨.load, (s.threads t).held⟩, rfl, rfl, ?_, Or.inl le_rfl, fun _ => Or.inl trivial⟩
      simp [Thread.taken, Thread.debt, hpc]
  | release =>
      have hheld : 0 < (s.threads t).held := by
        simpa [Thread.Shape, hpc] using hshape
      simp only [hpc, Option.some.injEq] at hst
      subst hst
      refine ⟨⟨.check s.current, (s.threads t).held - 1⟩, rfl, rfl, ?_, Or.inl ?_,
        fun _ => Or.inr ⟨rfl, ?_⟩⟩
      · simp [Thread.taken, Thread.debt, hpc]
        omega
      · show (((s.threads t).held - 1 : Nat) : Int) ≤ (s.threads t).held
        omega
      · show (s.threads t).held = (s.threads t).held - 1 + 1
        omega
  | check val =>
      simp only [hpc, Option.some.injEq] at hst
      subst hst
      refine ⟨⟨.idle, (s.threads t).held⟩, rfl, rfl, ?_, Or.inl le_rfl, fun _ => Or.inl trivial⟩
      simp [Thread.taken, Thread.debt, hpc]

/-! ## §3. The invariant. -/

section Invariant

variable [Fintype T] {m : Int}

/-- **The semaphore invariant**: the counter is the maximum less what the
threads have taken off it, and they hold no more permits than there are. -/
structure Inv (m : Int) (s : Semaphore T) : Prop where
  max_eq : s.max = m
  current_eq : s.current = m - ∑ t, (s.threads t).taken
  held_le : ∑ t, ((s.threads t).held : Int) ≤ m
  shape : ∀ t, (s.threads t).Shape m

omit [DecidableEq T] in
theorem inv_init (hm : 0 ≤ m) : Inv m (init m : Semaphore T) := by
  constructor
  case max_eq => rfl
  case current_eq => simp [init, Thread.taken, Thread.debt]
  case held_le => simpa [init] using hm
  case shape => intro t; exact trivial

omit [DecidableEq T] in
/-- The permits out are at most what has been taken off. -/
theorem sum_held_le_taken (s : Semaphore T) :
    ∑ t, ((s.threads t).held : Int) ≤ ∑ t, (s.threads t).taken :=
  Finset.sum_le_sum fun t _ => (s.threads t).held_le_taken

omit [DecidableEq T] in
/-- A thread with a permit leaves the counter below the maximum. -/
theorem Inv.current_lt {s : Semaphore T} (h : Inv m s) {t : T}
    (hheld : 0 < (s.threads t).held) : s.current < m := by
  have hone : (s.threads t).taken ≤ ∑ u, (s.threads u).taken :=
    Finset.single_le_sum (f := fun u => (s.threads u).taken)
      (fun u _ => (s.threads u).taken_nonneg) (Finset.mem_univ t)
  have htaken := (s.threads t).held_le_taken
  rw [h.current_eq]
  omega

/-- **A step keeps the invariant.** -/
theorem Inv.moves {s s' : Semaphore T} {t : T} {x : Thread} (h : Inv m s)
    (hmove : Moves s s' t x) : Inv m s' := by
  obtain ⟨hself, hother⟩ := Parties.update_cases hmove.threads_eq
  constructor
  case max_eq => rw [hmove.max_eq, h.max_eq]
  case current_eq =>
    rw [hmove.current_eq, h.current_eq, Parties.sum_update Thread.taken hmove.threads_eq]
    omega
  case held_le =>
    have hsum := Parties.sum_update (fun th : Thread => (th.held : Int)) hmove.threads_eq
    have hold := h.held_le
    rcases hmove.held_le with hless | ⟨hmore, hpermit⟩
    · omega
    · -- a permit is won only while the counter, so the number left, is positive
      have hcur := h.current_eq
      have htaken := sum_held_le_taken s
      omega
  case shape =>
    intro u
    by_cases hut : u = t
    · rw [hut, hself]
      have ht := h.shape t
      rw [← h.max_eq] at ht ⊢
      rcases hmove.shape ht with hx | ⟨hcheck, hheld⟩
      · exact hx
      · -- what `release` read was below the maximum, by its own permit
        have hlt := h.current_lt (t := t) (by omega)
        unfold Thread.Shape
        rw [hcheck]
        show s.current < s.max
        rw [h.max_eq]
        exact hlt
    · rw [hother u hut]
      exact h.shape u

theorem run_inv (hm : 0 ≤ m) {hist : List (Event T)} {s : Semaphore T}
    (hrun : Run Step (init m) hist s) : Inv m s := by
  refine hrun.invariant (Inv m) (inv_init hm) ?_
  intro s e s' h hst
  cases e with
  | call t op =>
      obtain ⟨x, hmove⟩ := moves_call hst
      exact h.moves hmove
  | step t =>
      obtain ⟨x, hmove⟩ := moves_step hst (h.max_eq ▸ h.shape t)
      exact h.moves hmove

/-! ## §4. Permits are conserved. -/

omit [DecidableEq T] in
/-- The debts are the threads about to undo a decrement. -/
theorem sum_debt (s : Semaphore T) :
    ∑ t, (s.threads t).debt = (Finset.univ.filter fun t => (s.threads t).pc = .back).card := by
  unfold Thread.debt
  exact Finset.sum_boole _ _

omit [DecidableEq T] in
theorem sum_taken (s : Semaphore T) :
    ∑ t, (s.threads t).taken = ∑ t, ((s.threads t).held : Int)
      + (Finset.univ.filter fun t => (s.threads t).pc = .back).card := by
  unfold Thread.taken
  rw [Finset.sum_add_distrib, sum_debt]

omit [DecidableEq T] in
/-- Every holder holds one permit at least. -/
theorem card_holders_le (s : Semaphore T) :
    ((Finset.univ.filter fun t => 0 < (s.threads t).held).card : Int)
      ≤ ∑ t, ((s.threads t).held : Int) := by
  rw [← Finset.sum_boole]
  refine Finset.sum_le_sum fun t _ => ?_
  split <;> omega

omit [DecidableEq T] in
/-- With one permit each at most, the permits out are the holders. -/
theorem card_holders_eq (s : Semaphore T) (hone : ∀ t, (s.threads t).held ≤ 1) :
    ((Finset.univ.filter fun t => 0 < (s.threads t).held).card : Int)
      = ∑ t, ((s.threads t).held : Int) := by
  rw [← Finset.sum_boole]
  refine Finset.sum_congr rfl fun t _ => ?_
  have ht := hone t
  split <;> omega

omit [DecidableEq T] in
/-- **The counter is never further below zero than there are threads**, and
never above the maximum. -/
theorem Inv.current_range {s : Semaphore T} (h : Inv m s) :
    -(Fintype.card T : Int) ≤ s.current ∧ s.current ≤ m := by
  have hcur := h.current_eq
  have hheld := h.held_le
  have hback : (Finset.univ.filter fun t => (s.threads t).pc = .back).card ≤ Fintype.card T :=
    Finset.card_le_univ _
  have hnonneg : 0 ≤ ∑ t, ((s.threads t).held : Int) :=
    Finset.sum_nonneg fun t _ => Int.natCast_nonneg _
  rw [sum_taken] at hcur
  constructor <;> omega

end Invariant

/-- **Permits are conserved.**  For every maximum, any number of threads and any
interleaving of the atomic operations of `acquire` and `release`, with `release`
called only by a thread that holds a permit: at most `m` permits are out, so at
most `m` threads hold one; the assertion of `release` never fails; and the
counter is `m` less the permits out less the threads about to undo a decrement
that brought nothing, which with one permit for each holder is `m` less the
holders less these threads. -/
theorem semaphore_conserves_permits {T : Type} [Fintype T] [DecidableEq T] {m : Int}
    (hm : 1 ≤ m) {hist : List (Event T)} {s : Semaphore T}
    (hrun : Run Step (init m) hist s) :
    (∑ t, ((s.threads t).held : Int) ≤ m)
      ∧ ((Finset.univ.filter fun t => 0 < (s.threads t).held).card : Int) ≤ m
      ∧ (∀ t val, (s.threads t).pc = .check val → val < s.max)
      ∧ (s.current = m - ∑ t, ((s.threads t).held : Int)
          - (Finset.univ.filter fun t => (s.threads t).pc = .back).card)
      ∧ ((∀ t, (s.threads t).held ≤ 1) →
          s.current = m - (Finset.univ.filter fun t => 0 < (s.threads t).held).card
            - (Finset.univ.filter fun t => (s.threads t).pc = .back).card)
      ∧ -(Fintype.card T : Int) ≤ s.current ∧ s.current ≤ m := by
  have hinv := run_inv (by omega) hrun
  have hcur := hinv.current_eq
  rw [sum_taken] at hcur
  refine ⟨hinv.held_le, ?_, ?_, by omega, ?_, hinv.current_range⟩
  · exact le_trans (card_holders_le s) hinv.held_le
  · intro t val hpc
    have hshape := hinv.shape t
    unfold Thread.Shape at hshape
    rw [hpc] at hshape
    rw [hinv.max_eq]
    exact hshape
  · intro hone
    rw [card_holders_eq s hone]
    omega

/-- One permit and three threads: the first holds it, the second and the third
have both decremented for nothing, so the counter is two below zero. -/
theorem semaphore_conserves_permits_contended :
    ∃ (hist : List (Event (Fin 3))) (s : Semaphore (Fin 3)),
      Run Step (init 1) hist s ∧ s.current = -2
        ∧ s.current = 1 - ∑ t, ((s.threads t).held : Int)
          - (Finset.univ.filter fun t => (s.threads t).pc = .back).card := by
  have hex : ∃ s : Semaphore (Fin 3), Run Step (init 1)
        ([.call 0 .acquire, .call 1 .acquire, .call 2 .acquire, .step 0, .step 1, .step 2,
          .step 0, .step 1, .step 2].reverse ++ []) s ∧ s.current = -2 :=
    ⟨_, Run.of_foldlM (f := Semaphore.next) _ Run.init rfl, rfl⟩
  obtain ⟨s, hrun, hcurrent⟩ := hex
  exact ⟨_, s, hrun, hcurrent, (semaphore_conserves_permits le_rfl hrun).2.2.2.1⟩

end Semaphore

end MierOS.Locking
