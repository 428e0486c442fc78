/-
  MierOS.Tasking.Scheduler — the run queue and the task switch:
  `ThreadQueue` of `thread_queue.hpp`, `Scheduler::schedule` and
  `schedule_thread` of `scheduler.cpp`, `Thread::sleep` and `wakeup` of
  `thread.cpp`, and `SleepQueue` of `sleep_queue.cpp`.

  Threads live at addresses and the queue is threaded through their `f_next`,
  as in the source: a wrong link stays wrong.  The loops over it take fuel; a
  step exists when some fuel is enough for its loops.

  Main results:
  * `pushBack_state` and its siblings — the queue operations write links and
    ends only;
  * `wakeup_run`: a whole `SleepQueue::wakeup` is a run of single wakeups,
    between which other cores may act.
-/
import MierOS.Lib.Run
import Mathlib.Algebra.Group.Nat.Defs
import Mathlib.Logic.Function.Basic

namespace MierOS.Tasking.Scheduling

open Lib

/-! ## §1. Threads, the queue and the cores. -/

/-- `ThreadState`. -/
inductive ThreadState where
  | RUNNING
  | RUNNABLE
  | SLEEPING
  | DYING
  | DEAD
  deriving Repr, DecidableEq

/-- A `Thread*`; `0` is null. -/
abbrev ThreadPtr := Nat

/-- The fields of a `Thread` that scheduling uses. -/
structure Thread where
  ksp : Nat
  state : ThreadState
  pid : Int
  next : ThreadPtr
  preferredCore : Int
  deriving Repr

/-- A `ThreadQueue`. -/
structure ThreadQueue where
  first : ThreadPtr
  last : ThreadPtr
  deriving Repr

/-- The `Scheduler` of a core. -/
structure Scheduler where
  currentThread : ThreadPtr
  idleKsp : Nat
  isIdle : Bool
  firstSwitch : Bool
  deriving Repr

/-- **The scheduling state**: the threads at their addresses, `s_threads`,
`runnable_queue`, the scheduler of every core and the `f_sleeping` of every
sleep queue. -/
structure Kernel where
  threads : ThreadPtr → Thread
  byPid : Int → ThreadPtr
  runnableQueue : ThreadQueue
  schedulers : Nat → Scheduler
  sleeping : Nat → List Int

namespace Kernel

/-! ### Reading the state. -/

def next (k : Kernel) (t : ThreadPtr) : ThreadPtr := (k.threads t).next
def state (k : Kernel) (t : ThreadPtr) : ThreadState := (k.threads t).state
def preferred (k : Kernel) (t : ThreadPtr) : Int := (k.threads t).preferredCore
def first (k : Kernel) : ThreadPtr := k.runnableQueue.first
def last (k : Kernel) : ThreadPtr := k.runnableQueue.last
def current (k : Kernel) (core : Nat) : ThreadPtr := (k.schedulers core).currentThread

/-! ### Writing one field. -/

def setThread (k : Kernel) (t : ThreadPtr) (th : Thread) : Kernel :=
  { k with threads := Function.update k.threads t th }

def setNext (k : Kernel) (t v : ThreadPtr) : Kernel :=
  k.setThread t { k.threads t with next := v }

def setState (k : Kernel) (t : ThreadPtr) (st : ThreadState) : Kernel :=
  k.setThread t { k.threads t with state := st }

def setPreferred (k : Kernel) (t : ThreadPtr) (core : Int) : Kernel :=
  k.setThread t { k.threads t with preferredCore := core }

def setKsp (k : Kernel) (t : ThreadPtr) (ksp : Nat) : Kernel :=
  k.setThread t { k.threads t with ksp := ksp }

def setFirst (k : Kernel) (t : ThreadPtr) : Kernel :=
  { k with runnableQueue := { k.runnableQueue with first := t } }

def setLast (k : Kernel) (t : ThreadPtr) : Kernel :=
  { k with runnableQueue := { k.runnableQueue with last := t } }

def setScheduler (k : Kernel) (core : Nat) (s : Scheduler) : Kernel :=
  { k with schedulers := Function.update k.schedulers core s }

/-! ### What each write shows to each read. -/

section Fields

variable (k : Kernel) (t v : ThreadPtr) (core : Nat)

/-- A field of the threads after one thread was replaced. -/
theorem field_setThread {α : Type} (field : Thread → α) (th : Thread) :
    (fun x => field ((k.setThread t th).threads x))
      = Function.update (fun x => field (k.threads x)) t (field th) :=
  Function.comp_update field k.threads t th

/-- A field that the replacement leaves alone. -/
theorem field_setThread_same {α : Type} (field : Thread → α) {th : Thread}
    (h : field th = field (k.threads t)) :
    (fun x => field ((k.setThread t th).threads x)) = fun x => field (k.threads x) := by
  rw [field_setThread, h]
  exact Function.update_eq_self t (fun x => field (k.threads x))

@[simp] theorem setNext_next : (k.setNext t v).next = Function.update k.next t v :=
  k.field_setThread t Thread.next _
@[simp] theorem setNext_state : (k.setNext t v).state = k.state :=
  k.field_setThread_same t Thread.state rfl
@[simp] theorem setNext_preferred : (k.setNext t v).preferred = k.preferred :=
  k.field_setThread_same t Thread.preferredCore rfl
@[simp] theorem setNext_first : (k.setNext t v).first = k.first := rfl
@[simp] theorem setNext_last : (k.setNext t v).last = k.last := rfl
@[simp] theorem setNext_schedulers : (k.setNext t v).schedulers = k.schedulers := rfl

@[simp] theorem setState_next (st : ThreadState) : (k.setState t st).next = k.next :=
  k.field_setThread_same t Thread.next rfl
@[simp] theorem setState_state (st : ThreadState) :
    (k.setState t st).state = Function.update k.state t st :=
  k.field_setThread t Thread.state _
@[simp] theorem setState_preferred (st : ThreadState) :
    (k.setState t st).preferred = k.preferred :=
  k.field_setThread_same t Thread.preferredCore rfl
@[simp] theorem setState_first (st : ThreadState) : (k.setState t st).first = k.first := rfl
@[simp] theorem setState_last (st : ThreadState) : (k.setState t st).last = k.last := rfl
@[simp] theorem setState_schedulers (st : ThreadState) :
    (k.setState t st).schedulers = k.schedulers := rfl

@[simp] theorem setPreferred_next (c : Int) : (k.setPreferred t c).next = k.next :=
  k.field_setThread_same t Thread.next rfl
@[simp] theorem setPreferred_state (c : Int) : (k.setPreferred t c).state = k.state :=
  k.field_setThread_same t Thread.state rfl
@[simp] theorem setPreferred_preferred (c : Int) :
    (k.setPreferred t c).preferred = Function.update k.preferred t c :=
  k.field_setThread t Thread.preferredCore _
@[simp] theorem setPreferred_first (c : Int) : (k.setPreferred t c).first = k.first := rfl
@[simp] theorem setPreferred_last (c : Int) : (k.setPreferred t c).last = k.last := rfl
@[simp] theorem setPreferred_schedulers (c : Int) :
    (k.setPreferred t c).schedulers = k.schedulers := rfl

@[simp] theorem setKsp_next (ksp : Nat) : (k.setKsp t ksp).next = k.next :=
  k.field_setThread_same t Thread.next rfl
@[simp] theorem setKsp_state (ksp : Nat) : (k.setKsp t ksp).state = k.state :=
  k.field_setThread_same t Thread.state rfl
@[simp] theorem setKsp_preferred (ksp : Nat) : (k.setKsp t ksp).preferred = k.preferred :=
  k.field_setThread_same t Thread.preferredCore rfl
@[simp] theorem setKsp_first (ksp : Nat) : (k.setKsp t ksp).first = k.first := rfl
@[simp] theorem setKsp_last (ksp : Nat) : (k.setKsp t ksp).last = k.last := rfl
@[simp] theorem setKsp_schedulers (ksp : Nat) :
    (k.setKsp t ksp).schedulers = k.schedulers := rfl

@[simp] theorem setFirst_next : (k.setFirst t).next = k.next := rfl
@[simp] theorem setFirst_state : (k.setFirst t).state = k.state := rfl
@[simp] theorem setFirst_preferred : (k.setFirst t).preferred = k.preferred := rfl
@[simp] theorem setFirst_first : (k.setFirst t).first = t := rfl
@[simp] theorem setFirst_last : (k.setFirst t).last = k.last := rfl
@[simp] theorem setFirst_schedulers : (k.setFirst t).schedulers = k.schedulers := rfl

@[simp] theorem setLast_next : (k.setLast t).next = k.next := rfl
@[simp] theorem setLast_state : (k.setLast t).state = k.state := rfl
@[simp] theorem setLast_preferred : (k.setLast t).preferred = k.preferred := rfl
@[simp] theorem setLast_first : (k.setLast t).first = k.first := rfl
@[simp] theorem setLast_last : (k.setLast t).last = t := rfl
@[simp] theorem setLast_schedulers : (k.setLast t).schedulers = k.schedulers := rfl

@[simp] theorem setScheduler_next (s : Scheduler) :
    (k.setScheduler core s).next = k.next := rfl
@[simp] theorem setScheduler_state (s : Scheduler) :
    (k.setScheduler core s).state = k.state := rfl
@[simp] theorem setScheduler_preferred (s : Scheduler) :
    (k.setScheduler core s).preferred = k.preferred := rfl
@[simp] theorem setScheduler_first (s : Scheduler) :
    (k.setScheduler core s).first = k.first := rfl
@[simp] theorem setScheduler_last (s : Scheduler) :
    (k.setScheduler core s).last = k.last := rfl
@[simp] theorem setScheduler_schedulers (s : Scheduler) :
    (k.setScheduler core s).schedulers = Function.update k.schedulers core s := rfl

end Fields

end Kernel

/-! ## §2. `ThreadQueue`. -/

namespace ThreadQueue

/-- `push_back(thread)`. -/
def pushBack (k : Kernel) (thread : ThreadPtr) : Kernel :=
  let k := k.setNext thread 0
  if k.last ≠ 0 then
    (k.setNext k.last thread).setLast thread
  else
    (k.setFirst thread).setLast thread

/-- The loop of `erase(thread)`, which advances with `++t`: from one thread it
goes to the address behind it, not to its `f_next`.  The result is the `prev`
at which `thread` was met, or `none` inside for a loop that ran to null. -/
def eraseFind (sizeofThread : Nat) (thread : ThreadPtr) :
    Nat → ThreadPtr → ThreadPtr → Option (Option ThreadPtr)
  | 0, _, _ => none
  | fuel + 1, t, prev =>
      if t = 0 then some none
      else if t = thread then some (some prev)
      else eraseFind sizeofThread thread fuel ((t + sizeofThread) % 2 ^ 64) t

/-- `erase(thread)`.  `prev = t->f_next` writes the loop variable, no link. -/
def erase (fuel sizeofThread : Nat) (k : Kernel) (thread : ThreadPtr) : Option (Kernel × Bool) :=
  match eraseFind sizeofThread thread fuel k.first 0 with
  | none => none
  | some none => some (k, false)
  | some (some prev) =>
      let k' := if prev = 0 then k.setFirst (k.next thread) else k
      let prev' := if prev = 0 then prev else k.next thread
      some (if k'.last = thread then k'.setLast prev' else k', true)

/-- How the loop of `get_optimal_thread` ends: at a thread that prefers the
core, or at the end of the queue with the best thread met.  `prev` is the node
the loop came from, in the second case the last one. -/
inductive Scan where
  | preferred (thread prev : ThreadPtr)
  | finished (best prev : ThreadPtr)
  deriving Repr, DecidableEq

/-- The loop of `get_optimal_thread(core)`. -/
def scan (k : Kernel) (core : Int) : Nat → ThreadPtr → ThreadPtr → ThreadPtr → Option Scan
  | 0, _, _, _ => none
  | fuel + 1, best, prev, thread =>
      if thread = 0 then some (.finished best prev)
      else if k.preferred best ≠ core ∧ k.preferred thread = core then
        some (.preferred thread prev)
      else
        let best' := if k.preferred best ≠ core ∧ k.preferred best ≠ -1
                        ∧ k.preferred thread = -1 then thread else best
        scan k core fuel best' thread (k.next thread)

/-- What `get_optimal_thread` does when the loop returns from inside. -/
def takePreferred (k : Kernel) (best prev : ThreadPtr) : Kernel :=
  let k' := if prev ≠ 0 then k.setNext prev (k.next best) else k.setFirst (k.next best)
  let k' := if best = k'.last then k'.setLast prev else k'
  k'.setNext best 0

/-- What it does behind the loop.  `prev` is the last node of the queue, whether
or not `best` is its successor. -/
def takeBest (k : Kernel) (core : Int) (best prev : ThreadPtr) : Kernel :=
  if best ≠ 0 then
    let k' := if best = k.first then k.setFirst (k.next best) else k.setNext prev (k.next best)
    let prev' := if best = k.first then 0 else prev
    let k' := if best = k'.last then k'.setLast prev' else k'
    (k'.setNext best 0).setPreferred best core
  else k

/-- `get_optimal_thread(core)`: the queue after and the thread, null for none. -/
def getOptimalThread (fuel : Nat) (k : Kernel) (core : Int) : Option (Kernel × ThreadPtr) :=
  match scan k core fuel k.first 0 k.first with
  | none => none
  | some (.preferred thread prev) => some (takePreferred k thread prev, thread)
  | some (.finished best prev) => some (takeBest k core best prev, best)

end ThreadQueue

/-! ## §3. `Scheduler`, `Thread` and `SleepQueue`. -/

namespace Scheduler

/-- What `schedule` returns: the CPU state to resume and the `next_switch_time`
written into it, in microseconds. -/
structure Resume where
  ksp : Nat
  nextSwitchTime : Nat
  deriving Repr, DecidableEq

/-- The first half of `schedule`: the interrupted task is put away. -/
def switchOut (k : Kernel) (core currentState : Nat) : Kernel :=
  let s := k.schedulers core
  if s.firstSwitch = false then
    if s.currentThread = 0 then k.setScheduler core { s with idleKsp := currentState }
    else
      let k := k.setKsp s.currentThread currentState
      let k := if k.state s.currentThread = .RUNNING
               then ThreadQueue.pushBack (k.setState s.currentThread .RUNNABLE) s.currentThread
               else k
      k.setScheduler core { s with currentThread := 0 }
  else k.setScheduler core { s with firstSwitch := false }

/-- The second half: the core goes idle or resumes `newThread`. -/
def switchIn (k : Kernel) (core : Nat) (newThread : ThreadPtr) : Kernel × Resume :=
  let s := k.schedulers core
  if newThread = 0 then (k.setScheduler core { s with isIdle := true }, ⟨s.idleKsp, 250⟩)
  else
    let k := k.setState newThread .RUNNING
    (k.setScheduler core { s with isIdle := false, currentThread := newThread },
      ⟨(k.threads newThread).ksp, 1000⟩)

/-- `schedule(current_state)` on `core`; `locked` is the answer of
`queue_lock.try_lock()`. -/
def schedule (fuel : Nat) (k : Kernel) (core currentState : Nat) (locked : Bool) :
    Option (Kernel × Resume) :=
  if locked = false then some (k, ⟨currentState, 1⟩)
  else
    match ThreadQueue.getOptimalThread fuel (switchOut k core currentState) core with
    | none => none
    | some (k', newThread) => some (switchIn k' core newThread)

/-- `schedule_thread(thread)`; its assertion only logs. -/
def scheduleThread (k : Kernel) (thread : ThreadPtr) : Kernel := ThreadQueue.pushBack k thread

/-- `remove_thread(thread)`. -/
def removeThread (fuel sizeofThread : Nat) (k : Kernel) (thread : ThreadPtr) : Option Kernel :=
  (ThreadQueue.erase fuel sizeofThread k thread).map Prod.fst

end Scheduler

namespace Thread

/-- The task switch `Thread::sleep` asks for. -/
inductive Reschedule where
  | none
  | forceTaskSwitch
  | sendTaskSwitchIrq (core : Int)
  deriving Repr, DecidableEq

/-- `sleep(reschedule)`, called on `core`. -/
def sleep (fuel sizeofThread : Nat) (k : Kernel) (core : Nat) (this : ThreadPtr)
    (reschedule : Bool) : Option (Kernel × Reschedule) :=
  let prevState := k.state this
  match Scheduler.removeThread fuel sizeofThread (k.setState this .SLEEPING) this with
  | none => none
  | some k' =>
      some (k', if reschedule = false then .none
                else if k'.current core = this then .forceTaskSwitch
                else if prevState = .RUNNING then .sendTaskSwitchIrq (k'.preferred this)
                else .none)

/-- `wakeup()`; its assertion only logs. -/
def wakeup (k : Kernel) (this : ThreadPtr) : Kernel :=
  Scheduler.scheduleThread (k.setState this .RUNNABLE) this

/-- `Thread::get(tid)`. -/
def get (k : Kernel) (tid : Int) : ThreadPtr := k.byPid tid

end Thread

namespace SleepQueue

/-- `sleep()` on `core` up to `leave_critical`.  The `force_task_switch` behind
it is a later `schedule` on that core, as is every tick of its timer. -/
def sleep (fuel sizeofThread : Nat) (k : Kernel) (core queue : Nat) : Option Kernel :=
  let thread := k.current core
  match Thread.sleep fuel sizeofThread k core thread false with
  | none => none
  | some (k', _) =>
      some { k' with sleeping := Function.update k'.sleeping queue
                                   (k'.sleeping queue ++ [(k'.threads thread).pid]) }

/-- The loop body of `wakeup`: pop a thread id and wake the thread, if there
still is one. -/
def wakeupNext (k : Kernel) (queue : Nat) : Kernel :=
  match k.sleeping queue with
  | [] => k
  | tid :: rest =>
      let k := { k with sleeping := Function.update k.sleeping queue rest }
      if Thread.get k tid ≠ 0 then Thread.wakeup k (Thread.get k tid) else k

/-- The loop of `wakeup(count)` with `n` sleepers left.  `woke` is incremented
by the test that ends the loop as well. -/
def wakeupLoop (queue count : Nat) : Nat → Nat → Kernel → Kernel × Nat
  | 0, woke, k => (k, woke + 1)
  | n + 1, woke, k =>
      if woke < count then wakeupLoop queue count n (woke + 1) (wakeupNext k queue)
      else (k, woke + 1)

/-- `wakeup(count)`. -/
def wakeup (k : Kernel) (queue count : Nat) : Kernel × Nat :=
  wakeupLoop queue count (k.sleeping queue).length 0 k

end SleepQueue

/-! ## §4. The steps. -/

/-- An atomic step: a task switch on a core, the three ways a thread is put on
the queue, and a thread that goes to sleep. -/
inductive Event where
  | schedule (core currentState : Nat) (locked : Bool)
  | scheduleThread (thread : ThreadPtr)
  | wakeup (thread : ThreadPtr)
  | sleep (core queue : Nat)
  | wakeupNext (queue : Nat)
  deriving Repr, DecidableEq

/-- **One step** of a machine with `coreCount` cores.  A thread that goes to
sleep is the current one of its core. -/
inductive Step (coreCount sizeofThread : Nat) (k : Kernel) : Event → Kernel → Prop
  | schedule {k' : Kernel} {core currentState : Nat} {locked : Bool}
      {resume : Scheduler.Resume} (fuel : Nat) (hcore : core < coreCount)
      (hrun : Scheduler.schedule fuel k core currentState locked = some (k', resume)) :
      Step coreCount sizeofThread k (.schedule core currentState locked) k'
  | scheduleThread {thread : ThreadPtr} (hthread : thread ≠ 0) :
      Step coreCount sizeofThread k (.scheduleThread thread) (Scheduler.scheduleThread k thread)
  | wakeup {thread : ThreadPtr} (hthread : thread ≠ 0) :
      Step coreCount sizeofThread k (.wakeup thread) (Thread.wakeup k thread)
  | sleep {k' : Kernel} {core queue : Nat} (fuel : Nat) (hcore : core < coreCount)
      (hcurrent : k.current core ≠ 0)
      (hrun : SleepQueue.sleep fuel sizeofThread k core queue = some k') :
      Step coreCount sizeofThread k (.sleep core queue) k'
  | wakeupNext {queue : Nat} :
      Step coreCount sizeofThread k (.wakeupNext queue) (SleepQueue.wakeupNext k queue)

/-- A thread as its constructor leaves it. -/
def Thread.create (ksp : Nat) (pid : Int) : Thread where
  ksp := ksp
  state := .RUNNABLE
  pid := pid
  next := 0
  preferredCore := -1

/-- The state after start-up: empty queues, every core before its first switch,
whatever the threads are. -/
def Kernel.boot (threads : ThreadPtr → Thread) (byPid : Int → ThreadPtr) (idleKsp : Nat → Nat) :
    Kernel where
  threads := threads
  byPid := byPid
  runnableQueue := ⟨0, 0⟩
  schedulers core := ⟨0, idleKsp core, false, true⟩
  sleeping _ := []

theorem wakeupLoop_run (coreCount sizeofThread queue count n woke : Nat) (k : Kernel) :
    ∃ hist, Run (Step coreCount sizeofThread) k hist (SleepQueue.wakeupLoop queue count n woke k).1
      ∧ ∀ e ∈ hist, e = .wakeupNext queue := by
  induction n generalizing woke k with
  | zero => exact ⟨[], Run.init, fun e he => absurd he (List.not_mem_nil)⟩
  | succ n ih =>
      unfold SleepQueue.wakeupLoop
      by_cases hlt : woke < count
      · rw [if_pos hlt]
        obtain ⟨hist, hrun, hall⟩ := ih (woke + 1) (SleepQueue.wakeupNext k queue)
        have hfirst : Step coreCount sizeofThread k (.wakeupNext queue)
            (SleepQueue.wakeupNext k queue) := Step.wakeupNext
        refine ⟨hist ++ [.wakeupNext queue], (Run.step Run.init hfirst).append hrun, ?_⟩
        intro e he
        rcases List.mem_append.mp he with he | he
        · exact hall e he
        · exact List.mem_singleton.mp he
      · rw [if_neg hlt]
        exact ⟨[], Run.init, fun e he => absurd he (List.not_mem_nil)⟩

/-- **A whole `SleepQueue::wakeup`** is a run of single wakeups. -/
theorem wakeup_run (coreCount sizeofThread queue count : Nat) (k : Kernel) :
    ∃ hist, Run (Step coreCount sizeofThread) k hist (SleepQueue.wakeup k queue count).1
      ∧ ∀ e ∈ hist, e = .wakeupNext queue :=
  wakeupLoop_run coreCount sizeofThread queue count _ 0 k

/-! ## §5. What the queue operations leave alone. -/

section Frame

open ThreadQueue

variable {k k' : Kernel} {core : Int} {fuel : Nat} {best t : ThreadPtr}

variable (k t)

@[simp] theorem pushBack_state : (pushBack k t).state = k.state := by
  unfold pushBack
  dsimp only
  split <;> simp

@[simp] theorem pushBack_preferred : (pushBack k t).preferred = k.preferred := by
  unfold pushBack
  dsimp only
  split <;> simp

@[simp] theorem pushBack_schedulers : (pushBack k t).schedulers = k.schedulers := by
  unfold pushBack
  dsimp only
  split <;> simp

variable {k t}

theorem erase_frame {sizeofThread : Nat} {found : Bool}
    (hrun : erase fuel sizeofThread k t = some (k', found)) :
    k'.state = k.state ∧ k'.preferred = k.preferred ∧ k'.schedulers = k.schedulers := by
  unfold erase at hrun
  split at hrun
  · exact absurd hrun (by simp)
  · injection hrun with hrun
    injection hrun with hk _
    rw [← hk]
    exact ⟨rfl, rfl, rfl⟩
  · injection hrun with hrun
    injection hrun with hk _
    rw [← hk]
    refine ⟨?_, ?_, ?_⟩ <;> (split <;> split <;> rfl)

theorem takeBest_frame (t prev : ThreadPtr) :
    (takeBest k core t prev).state = k.state
      ∧ (takeBest k core t prev).schedulers = k.schedulers := by
  unfold takeBest
  by_cases h0 : t ≠ 0
  · simp only [if_pos h0]
    constructor <;> (split <;> split <;> simp)
  · rw [if_neg h0]
    exact ⟨rfl, rfl⟩

theorem getOptimalThread_frame (hrun : getOptimalThread fuel k core = some (k', best)) :
    k'.state = k.state ∧ k'.schedulers = k.schedulers := by
  unfold getOptimalThread at hrun
  split at hrun
  · exact absurd hrun (by simp)
  · injection hrun with hrun
    injection hrun with hk _
    rw [← hk]
    unfold takePreferred
    dsimp only
    constructor <;> (split <;> split <;> simp)
  · injection hrun with hrun
    injection hrun with hk _
    rw [← hk]
    exact takeBest_frame _ _

end Frame

end MierOS.Tasking.Scheduling
