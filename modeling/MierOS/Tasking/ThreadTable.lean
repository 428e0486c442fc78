/-
  MierOS.Tasking.ThreadTable — the ids of threads: `generate_pid`, the
  constructor and the destructor of `thread.cpp`, and the two operations that
  give an existing thread another id, `Process::minimize` and `Process::execve`.

  `s_threads` is the `std::UnorderedMap<pid_t, Thread*>` of
  `Stdlib.UnorderedMap` with an arbitrary hash.  A thread object exists from
  its constructor to its destructor, whatever its `f_state`; of a process only
  the list `f_threads` is kept.

  Main results: `generatePid_nonzero_iff`, `execve_takes_pid_iff`,
  `thread_table`.
-/
import MierOS.Lib.Run
import MierOS.Stdlib.UnorderedMap
import Mathlib.Logic.Function.Basic

namespace MierOS.Tasking.ThreadTable

open Stdlib Lib
open Function (update update_apply update_eq_self update_of_ne update_self)

/-! ## §1. Threads and processes. -/

/-- `pid_t`, that is `u32_t`. -/
abbrev Pid := BitVec 32

/-- The address of a `Thread`. -/
abbrev ThreadPtr := Nat

/-- The address of a `Process`. -/
abbrev ProcPtr := Nat

/-- `f_parent` and `f_pid` of a `Thread`. -/
structure Thread where
  parent : ProcPtr
  pid : Pid
  deriving Repr, DecidableEq

/-- The static members of `Thread`, the objects that exist, and `f_threads` of
every process. -/
structure State where
  nextPid : Pid
  sThreads : UnorderedMap Pid ThreadPtr
  threads : ThreadPtr → Option Thread
  fThreads : ProcPtr → List ThreadPtr

/-- Before the first process. -/
def State.init : State :=
  { nextPid := 1
    sThreads := UnorderedMap.ofCapacity UnorderedMap.initialBucketSize
    threads := fun _ => none
    fThreads := fun _ => [] }

section Code

variable (hash : Pid → Nat)

/-- The loop of `generate_pid()`: the id and `s_next_pid` after it. -/
def generatePid (m : UnorderedMap Pid ThreadPtr) : Nat → Pid → Option (Pid × Pid)
  | 0, _ => none
  | fuel + 1, next =>
      if (m.find hash next).entry.isEmpty then some (next, next + 1)
      else generatePid m fuel (next + 1)

/-- The loop visits every id once; after that many steps it would start again,
so `none` is a loop that never ends. -/
def searchSteps : Nat := 4294967296

namespace State

/-- `f_threads.push_back(new Thread(entry_point, isKernel, this))`, which the
constructors of `Process` do.  `new` answers with the address of no object. -/
def create (s : State) (p : ProcPtr) (t : ThreadPtr) : Option State := do
  let (pid, next) ← generatePid hash s.sThreads searchSteps s.nextPid
  some { nextPid := next
         sThreads := (s.sThreads.insert hash pid t).2
         threads := update s.threads t (some { parent := p, pid := pid })
         fThreads := update s.fThreads p (s.fThreads p ++ [t]) }

/-- `delete thread`, that is `~Thread()`. -/
def delete (s : State) (t : ThreadPtr) : Option State := do
  let thread ← s.threads t
  some { s with threads := update s.threads t none
                sThreads := s.sThreads.erase hash thread.pid }

/-- `for(auto* thread : f_threads) if(thread != keep) delete thread;` -/
def deleteOthers (keep : ThreadPtr) : List ThreadPtr → State → Option State
  | [], s => some s
  | t :: ts, s =>
      if t ≠ keep then (s.delete hash t).bind (deleteOthers keep ts)
      else deleteOthers keep ts s

/-- "Swap the PIDs": both ids leave the map before either comes back. -/
def swapPids (s : State) (main this : ThreadPtr) : Option State := do
  let mainThread ← s.threads main
  let thisThread ← s.threads this
  let erased := (s.sThreads.erase hash mainThread.pid).erase hash thisThread.pid
  let relinked := (erased.insert hash thisThread.pid main).2
  some { s with
    threads := update
      (update s.threads this (some { thisThread with pid := mainThread.pid }))
      main (some { mainThread with pid := thisThread.pid })
    sThreads := (relinked.insert hash mainThread.pid this).2 }

/-- `if(main_thread() != thisThread)`, the swap of `minimize`. -/
def takeMainPid (s : State) (main this : ThreadPtr) : Option State :=
  if main ≠ this then s.swapPids hash main this else some s

/-- `f_threads.clear(); f_threads.push_back(thread);` -/
def keepOnly (s : State) (p : ProcPtr) (t : ThreadPtr) : State :=
  { s with fThreads := update s.fThreads p [t] }

/-- `Process::minimize()`, called from thread `this`: a suicide when `this` is a
thread of the process. -/
def minimize (s : State) (p : ProcPtr) (this : ThreadPtr) : Option State :=
  match s.fThreads p with
  | [] => none
  | main :: rest =>
      if this ∈ main :: rest then do
        let swapped ← s.takeMainPid hash main this
        let alone ← deleteOthers hash this (main :: rest) swapped
        some (alone.keepOnly p this)
      else do
        let alone ← deleteOthers hash main (main :: rest) s
        some (alone.keepOnly p main)

/-- `Process::execve` from "no return part starts here" on, called from thread
`this` of its parent; the `ASSERT_F` stops the kernel.  The other threads are
taken off the list and not deleted. -/
def execve (s : State) (this : ThreadPtr) : Option State := do
  let thisThread ← s.threads this
  match s.fThreads thisThread.parent with
  | [] => none
  | main :: rest => do
      let mainThread ← s.threads main
      if this ∈ main :: rest then
        let erased := s.sThreads.erase hash thisThread.pid
        some { s.keepOnly thisThread.parent this with
          threads := update s.threads this
            (some { thisThread with pid := mainThread.pid })
          sThreads := (erased.insert hash mainThread.pid this).2 }
      else none

/-- `Thread::get(tid)`. -/
def get (s : State) (tid : Pid) : Option ThreadPtr := s.sThreads.at hash tid

/-- `Process::pid()`, that is `main_thread()->pid()`. -/
def pid (s : State) (p : ProcPtr) : Option Pid := do
  let main ← (s.fThreads p).head?
  let mainThread ← s.threads main
  some mainThread.pid

end State

/-- What happens to threads. -/
inductive Event where
  | create (p : ProcPtr) (t : ThreadPtr)
  | destroy (t : ThreadPtr)
  | exit (p : ProcPtr) (this : ThreadPtr)
  | execve (this : ThreadPtr)
  deriving Repr, DecidableEq

/-- The state after an event. -/
def State.exec (s : State) : Event → Option State
  | .create p t => s.create hash p t
  | .destroy t => s.delete hash t
  | .exit p this => s.minimize hash p this
  | .execve this => s.execve hash this

/-- One event as a step. -/
def Step (s : State) (e : Event) (s' : State) : Prop := s.exec hash e = some s'

/-- What the callers see to: `new` finds unused memory, a thread is deleted
when it exists and no process lists it any more, a process that ends has a
thread, and the caller of `execve` is a thread of its process. -/
def Proper (s : State) : Event → Prop
  | .create _ t => s.threads t = none
  | .destroy t => s.threads t ≠ none ∧ ∀ p, t ∉ s.fThreads p
  | .exit p _ => s.fThreads p ≠ []
  | .execve this => ∃ thread, s.threads this = some thread ∧ this ∈ s.fThreads thread.parent

/-- **The condition**: the counter does not pass its end while it looks for a
free id, and `execve` is called from the main thread. -/
def Meets (s : State) : Event → Prop
  | .create _ _ => s.nextPid ≠ 0
      ∧ ∃ pid : Pid, s.nextPid.toNat ≤ pid.toNat ∧ s.sThreads.at hash pid = none
  | .execve this => ∀ thread, s.threads this = some thread →
      (s.fThreads thread.parent).head? = some this
  | _ => True

end Code

/-! ## §2. The id of a new thread. -/

section Generate

variable {hash : Pid → Nat} {m : UnorderedMap Pid ThreadPtr}

theorem generatePid_succ (fuel : Nat) (next : Pid) :
    generatePid hash m (fuel + 1) next
      = if m.at hash next = none then some (next, next + 1)
        else generatePid hash m fuel (next + 1) := by
  simp only [generatePid, UnorderedMap.find_isEmpty_iff]

theorem toNat_succ {next : Pid} (h : next.toNat + 1 < 4294967296) :
    (next + 1).toNat = next.toNat + 1 := by
  bv_omega

/-- A free id at or above the start bounds what the search answers. -/
theorem generatePid_le {fuel : Nat} {next pid : Pid} (hle : next.toNat ≤ pid.toNat)
    (hfuel : pid.toNat - next.toNat < fuel) (hfree : m.at hash pid = none) :
    ∃ r : Pid, generatePid hash m fuel next = some (r, r + 1) ∧ m.at hash r = none
      ∧ next.toNat ≤ r.toNat := by
  induction fuel generalizing next with
  | zero => omega
  | succ fuel ih =>
      rw [generatePid_succ]
      by_cases hnext : m.at hash next = none
      · exact ⟨next, if_pos hnext, hnext, le_rfl⟩
      · rw [if_neg hnext]
        have hne : next.toNat ≠ pid.toNat := by
          intro heq
          exact hnext (BitVec.eq_of_toNat_eq heq ▸ hfree)
        have hsucc : (next + 1).toNat = next.toNat + 1 := by
          apply toNat_succ
          have := pid.isLt
          omega
        have hlow : (next + 1).toNat ≤ pid.toNat := by omega
        obtain ⟨r, hr, hfree', hle'⟩ := ih hlow (by omega)
        exact ⟨r, hr, hfree', by omega⟩

/-- **Past the last id comes `0`.** -/
theorem generatePid_wraps {fuel : Nat} {next : Pid} (h0 : m.at hash 0 = none)
    (hfuel : 4294967296 - next.toNat < fuel)
    (hused : ∀ pid : Pid, next.toNat ≤ pid.toNat → m.at hash pid ≠ none) :
    generatePid hash m fuel next = some (0, 1) := by
  induction fuel generalizing next with
  | zero => omega
  | succ fuel ih =>
      rw [generatePid_succ, if_neg (hused next le_rfl)]
      have hlt := next.isLt
      by_cases hlast : next.toNat + 1 < 4294967296
      · have hsucc := toNat_succ hlast
        apply ih
        · omega
        · intro pid hpid
          exact hused pid (by omega)
      · -- the counter is at its end: the next id tried is 0, which is free
        have hzero : next + 1 = 0 := by bv_omega
        obtain ⟨fuel, rfl⟩ : ∃ f, fuel = f + 1 := Nat.exists_eq_succ_of_ne_zero (by omega)
        rw [hzero, generatePid_succ, if_pos h0]
        rfl

/-- **The id of a new thread** is free; it is `0` exactly when the counter
passes its end on the way to it. -/
theorem generatePid_nonzero_iff (h0 : m.at hash 0 = none) (next : Pid) :
    ∃ r : Pid, generatePid hash m searchSteps next = some (r, r + 1) ∧ m.at hash r = none
      ∧ (r ≠ 0 ↔ next ≠ 0 ∧ ∃ pid : Pid, next.toNat ≤ pid.toNat ∧ m.at hash pid = none) := by
  by_cases hnext : next = 0
  · -- the search starts at 0
    refine ⟨0, ?_, h0, ?_⟩
    · rw [hnext, searchSteps, generatePid_succ, if_pos h0]
    · simp [hnext]
  · have hpos : 0 < next.toNat := by bv_omega
    by_cases hex : ∃ pid : Pid, next.toNat ≤ pid.toNat ∧ m.at hash pid = none
    · obtain ⟨pid, hle, hfree⟩ := hex
      have hfuel : pid.toNat - next.toNat < searchSteps := by
        have := pid.isLt
        unfold searchSteps
        omega
      obtain ⟨r, hr, hrfree, hrle⟩ := generatePid_le hle hfuel hfree
      refine ⟨r, hr, hrfree, ?_⟩
      have hne : r ≠ 0 := by bv_omega
      exact ⟨fun _ => ⟨hnext, pid, hle, hfree⟩, fun _ => hne⟩
    · refine ⟨0, ?_, h0, ?_⟩
      · apply generatePid_wraps h0
        · unfold searchSteps
          omega
        · intro pid hle hfree
          exact hex ⟨pid, hle, hfree⟩
      · simp [hex]

end Generate

/-! ## §3. The ids and the table. -/

/-- **`s_threads` holds exactly the threads that exist**, under non-zero ids. -/
structure Table (hash : Pid → Nat) (s : State) : Prop where
  map : s.sThreads.WF hash
  mapped : ∀ t thread, s.threads t = some thread → s.sThreads.at hash thread.pid = some t
  known : ∀ pid t, s.sThreads.at hash pid = some t →
    ∃ thread, s.threads t = some thread ∧ thread.pid = pid
  nonzero : ∀ t thread, s.threads t = some thread → thread.pid ≠ 0

/-- The process of an existing thread. -/
def State.parentOf (s : State) (t : ThreadPtr) : Option ProcPtr := (s.threads t).map Thread.parent

section Ids

variable {hash : Pid → Nat} {s s' : State}

theorem Table.injective (h : Table hash s) {t u : ThreadPtr} {thread other : Thread}
    (ht : s.threads t = some thread) (hu : s.threads u = some other)
    (hpid : thread.pid = other.pid) : t = u := by
  have hat := h.mapped t thread ht
  rw [hpid, h.mapped u other hu] at hat
  injection hat with hat
  exact hat.symm

/-- Who has another id is another thread. -/
theorem Table.ne_of_pid {t u : ThreadPtr} {thread other : Thread}
    (ht : s.threads t = some thread) (hu : s.threads u = some other)
    (hpid : other.pid ≠ thread.pid) : u ≠ t := by
  rintro rfl
  rw [ht, Option.some_inj] at hu
  exact hpid (by rw [hu])

theorem Table.zero_free (h : Table hash s) : s.sThreads.at hash 0 = none := by
  cases hat : s.sThreads.at hash 0 with
  | none => rfl
  | some t =>
      obtain ⟨thread, hthread, hpid⟩ := h.known 0 t hat
      exact absurd hpid (h.nonzero t thread hthread)

theorem Table.init (hash : Pid → Nat) : Table hash State.init := by
  have hcap : 0 < UnorderedMap.initialBucketSize := by decide
  refine ⟨(UnorderedMap.wf_ofCapacity hash hcap).1, ?_, ?_, ?_⟩
  · intro t thread ht
    exact absurd ht (by simp [State.init])
  · intro pid t hat
    rw [State.init, UnorderedMap.at_ofCapacity hcap] at hat
    exact absurd hat (by simp)
  · intro t thread ht
    exact absurd ht (by simp [State.init])

/-- **A new thread** under a free non-zero id. -/
theorem Table.insert (h : Table hash s) {t : ThreadPtr} {thread : Thread}
    (hnew : s.threads t = none) (hfree : s.sThreads.at hash thread.pid = none)
    (hpid : thread.pid ≠ 0) (hmap : s'.sThreads = (s.sThreads.insert hash thread.pid t).2)
    (hthreads : s'.threads = update s.threads t (some thread)) : Table hash s' := by
  refine ⟨?_, ?_, ?_, ?_⟩
  · rw [hmap]
    exact h.map.insert thread.pid t
  · intro u other hu
    rw [hthreads] at hu
    rw [hmap, UnorderedMap.at_insert h.map t hfree]
    by_cases hut : u = t
    · rw [hut, update_self] at hu
      injection hu with hu
      rw [← hu, if_pos rfl, hut]
    · rw [update_of_ne hut] at hu
      have hat := h.mapped u other hu
      rw [if_neg, hat]
      intro heq
      rw [heq, hfree] at hat
      exact absurd hat (by simp)
  · intro pid u hat
    rw [hmap, UnorderedMap.at_insert h.map t hfree] at hat
    rw [hthreads]
    by_cases hpid' : pid = thread.pid
    · rw [if_pos hpid'] at hat
      injection hat with hat
      exact ⟨thread, by rw [← hat, update_self], hpid'.symm⟩
    · rw [if_neg hpid'] at hat
      obtain ⟨other, hother, hopid⟩ := h.known pid u hat
      have hut : u ≠ t := by
        rintro rfl
        rw [hnew] at hother
        exact absurd hother (by simp)
      exact ⟨other, by rw [update_of_ne hut, hother], hopid⟩
  · intro u other hu
    rw [hthreads] at hu
    by_cases hut : u = t
    · rw [hut, update_self] at hu
      injection hu with hu
      exact hu ▸ hpid
    · rw [update_of_ne hut] at hu
      exact h.nonzero u other hu

theorem State.delete_eq {t : ThreadPtr} {thread : Thread} (ht : s.threads t = some thread) :
    s.delete hash t = some { s with threads := update s.threads t none
                                    sThreads := s.sThreads.erase hash thread.pid } := by
  rw [State.delete, ht]
  rfl

/-- **A deleted thread** leaves the table, and nothing else does. -/
theorem Table.delete (h : Table hash s) {t : ThreadPtr} {thread : Thread}
    (ht : s.threads t = some thread) :
    ∃ s', s.delete hash t = some s' ∧ Table hash s' ∧ s'.fThreads = s.fThreads
      ∧ s'.threads = update s.threads t none := by
  refine ⟨_, State.delete_eq ht, ⟨h.map.erase _, ?_, ?_, ?_⟩, rfl, rfl⟩
  · intro u other hu
    have hut : u ≠ t := by
      rintro rfl
      exact absurd hu (by simp)
    simp only [update_of_ne hut] at hu
    rw [UnorderedMap.at_erase h.map, if_neg, h.mapped u other hu]
    intro hpid
    exact hut (h.injective hu ht hpid)
  · intro pid u hat
    rw [UnorderedMap.at_erase h.map] at hat
    by_cases hpid : pid = thread.pid
    · rw [if_pos hpid] at hat
      exact absurd hat (by simp)
    · rw [if_neg hpid] at hat
      obtain ⟨other, hother, hopid⟩ := h.known pid u hat
      have hut : u ≠ t := Table.ne_of_pid ht hother (hopid ▸ hpid)
      exact ⟨other, by simp only [update_of_ne hut, hother], hopid⟩
  · intro u other hu
    by_cases hut : u = t
    · rw [hut] at hu
      exact absurd hu (by simp)
    · simp only [update_of_ne hut] at hu
      exact h.nonzero u other hu

/-- **Deleting all threads of a list but one.** -/
theorem Table.deleteOthers (h : Table hash s) (keep : ThreadPtr) {l : List ThreadPtr}
    (hnodup : l.Nodup) (hall : ∀ t ∈ l, s.threads t ≠ none) :
    ∃ s', s.deleteOthers hash keep l = some s' ∧ Table hash s' ∧ s'.fThreads = s.fThreads
      ∧ ∀ u, s'.threads u = if u ∈ l ∧ u ≠ keep then none else s.threads u := by
  induction l generalizing s with
  | nil => exact ⟨s, rfl, h, rfl, fun u => by simp⟩
  | cons t ts ih =>
      rw [List.nodup_cons] at hnodup
      unfold State.deleteOthers
      by_cases hkeep : t = keep
      · rw [if_neg (by simp [hkeep])]
        obtain ⟨s', hs', htable, hlist, hthreads⟩ :=
          ih h hnodup.2 (fun u hu => hall u (List.mem_cons_of_mem t hu))
        refine ⟨s', hs', htable, hlist, fun u => ?_⟩
        rw [hthreads u]
        by_cases hut : u = t
        · simp [hut, hkeep]
        · simp [hut]
      · rw [if_pos hkeep]
        obtain ⟨thread, hthread⟩ := Option.ne_none_iff_exists'.mp (hall t List.mem_cons_self)
        obtain ⟨m, hm, hmtable, hmlist, hmthreads⟩ := h.delete hthread
        -- the rest of the list is still there
        have hrest : ∀ u ∈ ts, m.threads u ≠ none := by
          intro u hu
          have hut : u ≠ t := by
            rintro rfl
            exact hnodup.1 hu
          rw [hmthreads, update_of_ne hut]
          exact hall u (List.mem_cons_of_mem t hu)
        obtain ⟨s', hs', htable, hlist, hthreads⟩ := ih hmtable hnodup.2 hrest
        refine ⟨s', by rw [hm]; exact hs', htable, hlist.trans hmlist, fun u => ?_⟩
        rw [hthreads u, hmthreads]
        by_cases hut : u = t
        · simp [hut, hkeep]
        · simp [hut]

/-- Two ids erased and given to new owners. -/
theorem at_rekey {m : UnorderedMap Pid ThreadPtr} (h : m.WF hash) {a b : Pid} (hab : a ≠ b)
    (v w : ThreadPtr) (x : Pid) :
    (((((m.erase hash a).erase hash b).insert hash b v).2).insert hash a w).2.at hash x
      = if x = a then some w else if x = b then some v else m.at hash x := by
  have ha := h.erase a
  have hb := ha.erase b
  have hbfree : ((m.erase hash a).erase hash b).at hash b = none := by
    rw [UnorderedMap.at_erase ha, if_pos rfl]
  have hafree : (((m.erase hash a).erase hash b).insert hash b v).2.at hash a = none := by
    rw [UnorderedMap.at_insert hb v hbfree, if_neg hab, UnorderedMap.at_erase ha, if_neg hab,
      UnorderedMap.at_erase h, if_pos rfl]
  rw [UnorderedMap.at_insert (hb.insert b v) w hafree, UnorderedMap.at_insert hb v hbfree,
    UnorderedMap.at_erase ha, UnorderedMap.at_erase h]
  by_cases hxa : x = a
  · simp [hxa]
  · by_cases hxb : x = b
    · simp [hxb]
    · simp [hxa, hxb]

/-- The threads after the swap: the two with each other's id, and the others. -/
theorem State.swapPids_spec {main this : ThreadPtr} {mainThread thisThread : Thread}
    (hmain : s.threads main = some mainThread) (hthis : s.threads this = some thisThread) :
    ∃ s', s.swapPids hash main this = some s' ∧ s'.fThreads = s.fThreads
      ∧ s'.sThreads = (((((s.sThreads.erase hash mainThread.pid).erase hash thisThread.pid).insert
        hash thisThread.pid main).2).insert hash mainThread.pid this).2
      ∧ ∀ u, s'.threads u
        = if u = main then some { mainThread with pid := thisThread.pid }
          else if u = this then some { thisThread with pid := mainThread.pid }
          else s.threads u := by
  unfold State.swapPids
  rw [hmain, hthis]
  refine ⟨_, rfl, rfl, rfl, fun u => ?_⟩
  simp only [update_apply]

/-- **The PID swap**: two threads trade ids and the table follows. -/
theorem Table.swapPids (h : Table hash s) {main this : ThreadPtr} (hne : main ≠ this)
    {mainThread thisThread : Thread} (hmain : s.threads main = some mainThread)
    (hthis : s.threads this = some thisThread) :
    ∃ s', s.swapPids hash main this = some s' ∧ Table hash s' ∧ s'.fThreads = s.fThreads
      ∧ ∀ u, s'.parentOf u = s.parentOf u := by
  have hpids : mainThread.pid ≠ thisThread.pid := fun heq => hne (h.injective hmain hthis heq)
  have hwf := (((h.map.erase mainThread.pid).erase thisThread.pid).insert thisThread.pid main)
  obtain ⟨s', hs', hlists, hmap, hthreads⟩ := State.swapPids_spec hmain hthis
  refine ⟨s', hs', ⟨?_, ?_, ?_, ?_⟩, hlists, ?_⟩
  · rw [hmap]
    exact hwf.insert mainThread.pid this
  · -- the table leads from every new id to its thread
    intro u other hu
    rw [hthreads] at hu
    rw [hmap, at_rekey h.map hpids]
    by_cases hum : u = main
    · rw [if_pos hum, Option.some_inj] at hu
      rw [← hu, if_neg (Ne.symm hpids), if_pos rfl, hum]
    · rw [if_neg hum] at hu
      by_cases hut : u = this
      · rw [if_pos hut, Option.some_inj] at hu
        rw [← hu, if_pos rfl, hut]
      · rw [if_neg hut] at hu
        rw [if_neg (fun heq => hum (h.injective hu hmain heq)),
          if_neg (fun heq => hut (h.injective hu hthis heq)), h.mapped u other hu]
  · -- and every entry is one of an existing thread
    intro pid u hat
    rw [hmap, at_rekey h.map hpids] at hat
    rw [hthreads]
    by_cases hpm : pid = mainThread.pid
    · rw [if_pos hpm, Option.some_inj] at hat
      rw [← hat, if_neg (Ne.symm hne), if_pos rfl]
      exact ⟨_, rfl, hpm.symm⟩
    · rw [if_neg hpm] at hat
      by_cases hpt : pid = thisThread.pid
      · rw [if_pos hpt, Option.some_inj] at hat
        rw [← hat, if_pos rfl]
        exact ⟨_, rfl, hpt.symm⟩
      · rw [if_neg hpt] at hat
        obtain ⟨other, hother, hopid⟩ := h.known pid u hat
        rw [if_neg (Table.ne_of_pid hmain hother (hopid ▸ hpm)),
          if_neg (Table.ne_of_pid hthis hother (hopid ▸ hpt))]
        exact ⟨other, hother, hopid⟩
  · intro u other hu
    rw [hthreads] at hu
    by_cases hum : u = main
    · rw [if_pos hum, Option.some_inj] at hu
      exact hu ▸ h.nonzero this thisThread hthis
    · rw [if_neg hum] at hu
      by_cases hut : u = this
      · rw [if_pos hut, Option.some_inj] at hu
        exact hu ▸ h.nonzero main mainThread hmain
      · rw [if_neg hut] at hu
        exact h.nonzero u other hu
  · -- only ids were traded
    intro u
    unfold State.parentOf
    rw [hthreads]
    by_cases hum : u = main
    · rw [if_pos hum, hum, hmain]
      rfl
    · rw [if_neg hum]
      by_cases hut : u = this
      · rw [if_pos hut, hut, hthis]
        rfl
      · rw [if_neg hut]

end Ids

/-! ## §4. The lists of the processes. -/

/-- **Every list holds existing threads of its own process**, each once. -/
structure Lists (s : State) : Prop where
  listed : ∀ p, ∀ t ∈ s.fThreads p, s.parentOf t = some p
  nodup : ∀ p, (s.fThreads p).Nodup

/-- The invariant. -/
structure Inv (hash : Pid → Nat) (s : State) : Prop where
  table : Table hash s
  lists : Lists s

section Processes

variable {hash : Pid → Nat} {s s' : State} {p : ProcPtr}

theorem Inv.init (hash : Pid → Nat) : Inv hash State.init :=
  ⟨Table.init hash, ⟨fun p t ht => absurd ht (by simp [State.init]), fun p => List.nodup_nil⟩⟩

theorem State.exists_of_parentOf {t : ThreadPtr} (h : s.parentOf t = some p) :
    ∃ thread, s.threads t = some thread ∧ thread.parent = p :=
  Option.map_eq_some_iff.mp h

theorem Lists.exists_of_mem (h : Lists s) {t : ThreadPtr} (ht : t ∈ s.fThreads p) :
    ∃ thread, s.threads t = some thread ∧ thread.parent = p :=
  State.exists_of_parentOf (h.listed p t ht)

/-- No list holds an address that is free. -/
theorem Lists.notMem_of_none (h : Lists s) {t : ThreadPtr} (hnew : s.threads t = none) :
    t ∉ s.fThreads p := by
  intro ht
  obtain ⟨thread, hthread, _⟩ := h.exists_of_mem ht
  rw [hnew] at hthread
  exact absurd hthread (by simp)

/-- A list that shrinks to one of its threads; the others may be gone. -/
theorem Lists.keepOnly (h : Lists s) {t : ThreadPtr} (ht : t ∈ s.fThreads p)
    (hlists : s'.fThreads = update s.fThreads p [t])
    (hparents : ∀ u, u = t ∨ u ∉ s.fThreads p → s'.parentOf u = s.parentOf u) : Lists s' := by
  refine ⟨fun q u hu => ?_, fun q => ?_⟩
  · rw [hlists] at hu
    by_cases hqp : q = p
    · rw [hqp, update_self, List.mem_singleton] at hu
      rw [hu, hqp, hparents t (Or.inl rfl)]
      exact h.listed p t ht
    · rw [update_of_ne hqp] at hu
      have hu' := h.listed q u hu
      -- a thread has one parent, so it is not on the list of `p`
      have hnot : u ∉ s.fThreads p := by
        intro hup
        rw [h.listed p u hup, Option.some_inj] at hu'
        exact hqp hu'.symm
      rw [hparents u (Or.inr hnot)]
      exact hu'
  · rw [hlists]
    by_cases hqp : q = p
    · rw [hqp, update_self]
      exact List.nodup_singleton t
    · rw [update_of_ne hqp]
      exact h.nodup q

/-! ### Creation and destruction. -/

/-- **A thread is created** when the counter does not pass its end. -/
theorem Inv.create (h : Inv hash s) {t : ThreadPtr} (hnew : s.threads t = none)
    (hmeets : Meets hash s (.create p t)) :
    ∃ s', s.create hash p t = some s' ∧ Inv hash s' := by
  obtain ⟨pid, hgen, hfree, hiff⟩ := generatePid_nonzero_iff h.table.zero_free s.nextPid
  refine ⟨_, by rw [State.create, hgen]; rfl, ?_, ?_, ?_⟩
  · exact h.table.insert hnew hfree (hiff.mpr hmeets) rfl rfl
  · intro q u hu
    by_cases hut : u = t
    · -- the new thread is on no list but the one it was pushed to
      have hq : q = p := by
        by_contra hqp
        simp only [update_of_ne hqp] at hu
        exact h.lists.notMem_of_none hnew (hut ▸ hu)
      simp [State.parentOf, hut, hq]
    · have hold : u ∈ s.fThreads q := by
        by_cases hqp : q = p
        · simp only [hqp, update_self, List.mem_append, List.mem_singleton, hut,
            or_false] at hu
          exact hqp ▸ hu
        · simpa only [update_of_ne hqp] using hu
      have hparent := h.lists.listed q u hold
      unfold State.parentOf at hparent ⊢
      simpa only [update_of_ne hut] using hparent
  · intro q
    by_cases hqp : q = p
    · simp only [hqp, update_self]
      rw [List.nodup_append]
      refine ⟨h.lists.nodup p, List.nodup_singleton t, ?_⟩
      rintro a ha b hb rfl
      exact h.lists.notMem_of_none hnew (List.mem_singleton.mp hb ▸ ha)
    · simp only [update_of_ne hqp]
      exact h.lists.nodup q

/-- **A thread no process lists is destroyed.** -/
theorem Inv.destroy (h : Inv hash s) {t : ThreadPtr} (ht : s.threads t ≠ none)
    (hlist : ∀ p, t ∉ s.fThreads p) : ∃ s', s.delete hash t = some s' ∧ Inv hash s' := by
  obtain ⟨thread, hthread⟩ := Option.ne_none_iff_exists'.mp ht
  obtain ⟨s', hs', htable, hlists, hthreads⟩ := h.table.delete hthread
  refine ⟨s', hs', htable, ?_, ?_⟩
  · intro q u hu
    rw [hlists] at hu
    have hut : u ≠ t := by
      rintro rfl
      exact hlist q hu
    have hparent := h.lists.listed q u hu
    unfold State.parentOf at hparent ⊢
    rw [hthreads, update_of_ne hut]
    exact hparent
  · intro q
    rw [hlists]
    exact h.lists.nodup q

/-! ### The end of a process. -/

/-- The list is emptied but for `keep`, in a state that has the same threads
under possibly other ids. -/
theorem Inv.alone (h : Inv hash s) {m : State} (htable : Table hash m)
    (hlists : m.fThreads = s.fThreads) (hparents : ∀ u, m.parentOf u = s.parentOf u)
    {keep : ThreadPtr} (hkeep : keep ∈ s.fThreads p) :
    ∃ alone, m.deleteOthers hash keep (s.fThreads p) = some alone
      ∧ Inv hash (alone.keepOnly p keep) := by
  have hall : ∀ t ∈ s.fThreads p, m.threads t ≠ none := by
    intro t ht
    have hparent := hparents t
    rw [h.lists.listed p t ht] at hparent
    obtain ⟨thread, hthread, _⟩ := State.exists_of_parentOf hparent
    rw [hthread]
    simp
  obtain ⟨alone, halone, hatable, halists, hathreads⟩ :=
    htable.deleteOthers keep (h.lists.nodup p) hall
  refine ⟨alone, halone, ⟨hatable.map, hatable.mapped, hatable.known, hatable.nonzero⟩, ?_⟩
  apply h.lists.keepOnly hkeep
  · rw [State.keepOnly, halists, hlists]
  · intro u hu
    have hstays : ¬ (u ∈ s.fThreads p ∧ u ≠ keep) := by
      intro ⟨hmem, hne⟩
      cases hu with
      | inl heq => exact hne heq
      | inr hnot => exact hnot hmem
    rw [← hparents u]
    unfold State.parentOf
    simp only [State.keepOnly, hathreads u, if_neg hstays]

/-- **A process ends**, from any thread, its own or not. -/
theorem Inv.minimize (h : Inv hash s) (hne : s.fThreads p ≠ []) (this : ThreadPtr) :
    ∃ s', s.minimize hash p this = some s' ∧ Inv hash s' := by
  obtain ⟨main, rest, hlist⟩ := List.exists_cons_of_ne_nil hne
  have hmain : main ∈ s.fThreads p := by
    rw [hlist]
    exact List.mem_cons_self
  unfold State.minimize
  simp only [hlist]
  by_cases hmem : this ∈ main :: rest
  · -- suicide: the caller takes the id of the main thread first
    have hthis : this ∈ s.fThreads p := hlist ▸ hmem
    have hswap : ∃ m, s.takeMainPid hash main this = some m
        ∧ Table hash m ∧ m.fThreads = s.fThreads ∧ ∀ u, m.parentOf u = s.parentOf u := by
      unfold State.takeMainPid
      by_cases heq : main = this
      · exact ⟨s, if_neg (by simp [heq]), h.table, rfl, fun u => rfl⟩
      · rw [if_pos heq]
        obtain ⟨mainThread, hmt, _⟩ := h.lists.exists_of_mem hmain
        obtain ⟨thisThread, htt, _⟩ := h.lists.exists_of_mem hthis
        exact h.table.swapPids heq hmt htt
    obtain ⟨m, hm, htable, hlists, hparents⟩ := hswap
    obtain ⟨alone, halone, hinv⟩ := h.alone htable hlists hparents hthis
    rw [hlist] at halone
    refine ⟨alone.keepOnly p this, ?_, hinv⟩
    rw [if_pos hmem, hm]
    simp only [Option.bind_eq_bind, Option.bind_some, halone]
  · obtain ⟨alone, halone, hinv⟩ := h.alone h.table rfl (fun u => rfl) hmain
    rw [hlist] at halone
    refine ⟨alone.keepOnly p main, ?_, hinv⟩
    rw [if_neg hmem]
    simp only [Option.bind_eq_bind, Option.bind_some, halone]

/-! ### `execve`. -/

theorem State.execve_eq {main this : ThreadPtr} {rest : List ThreadPtr}
    {mainThread thisThread : Thread} (hthis : s.threads this = some thisThread)
    (hlist : s.fThreads thisThread.parent = main :: rest) (hmem : this ∈ main :: rest)
    (hmain : s.threads main = some mainThread) :
    s.execve hash this = some { s.keepOnly thisThread.parent this with
      threads := update s.threads this (some { thisThread with pid := mainThread.pid })
      sThreads := ((s.sThreads.erase hash thisThread.pid).insert hash mainThread.pid this).2 } := by
  unfold State.execve
  simp only [hthis, hlist, hmain, Option.bind_eq_bind, Option.bind_some, if_pos hmem]

/-- **Who holds the id of the process after `execve`.**  The caller erases its
own id and inserts the main thread's, which is refused while the main thread
still holds it. -/
theorem execve_takes_pid_iff (h : Inv hash s) {this : ThreadPtr} {thisThread : Thread}
    (hthis : s.threads this = some thisThread) (hmem : this ∈ s.fThreads thisThread.parent) :
    ∃ s' pid, s.execve hash this = some s' ∧ s'.pid thisThread.parent = some pid
      ∧ (s'.get hash pid = some this ↔ (s.fThreads thisThread.parent).head? = some this) := by
  obtain ⟨main, rest, hlist⟩ := List.exists_cons_of_ne_nil (List.ne_nil_of_mem hmem)
  have hmemMain : main ∈ s.fThreads thisThread.parent := by
    rw [hlist]
    exact List.mem_cons_self
  obtain ⟨mainThread, hmain, _⟩ := h.lists.exists_of_mem hmemMain
  rw [hlist] at hmem
  refine ⟨_, mainThread.pid, State.execve_eq hthis hlist hmem hmain, ?_, ?_⟩
  · simp [State.pid, State.keepOnly]
  · simp only [State.get, hlist, List.head?_cons, Option.some_inj]
    rw [UnorderedMap.at_insert_or (h.table.map.erase _), UnorderedMap.at_erase h.table.map,
      if_pos rfl]
    by_cases heq : main = this
    · have hpid : mainThread.pid = thisThread.pid := by
        rw [heq, hthis, Option.some_inj] at hmain
        rw [hmain]
      simp [heq, hpid]
    · have hpid : mainThread.pid ≠ thisThread.pid :=
        fun hpid => heq (h.table.injective hmain hthis hpid)
      rw [if_neg hpid, h.table.mapped main mainThread hmain]
      simp

/-- **`execve` from the main thread** leaves every id where it was. -/
theorem Inv.execve (h : Inv hash s) {this : ThreadPtr} {thisThread : Thread}
    (hthis : s.threads this = some thisThread)
    (hhead : (s.fThreads thisThread.parent).head? = some this) :
    ∃ s', s.execve hash this = some s' ∧ Inv hash s'
      ∧ s'.fThreads thisThread.parent = [this] := by
  obtain ⟨rest, hlist⟩ := List.head?_eq_some_iff.mp hhead
  have hmem : this ∈ s.fThreads thisThread.parent := by
    rw [hlist]
    exact List.mem_cons_self
  have hsame : update s.threads this (some { thisThread with pid := thisThread.pid })
      = s.threads := by
    rw [← hthis, update_eq_self]
  have hat : ∀ x, ((s.sThreads.erase hash thisThread.pid).insert hash thisThread.pid this).2.at
      hash x = s.sThreads.at hash x := by
    intro x
    rw [UnorderedMap.at_insert_or (h.table.map.erase _), UnorderedMap.at_erase h.table.map]
    by_cases hx : x = thisThread.pid
    · rw [if_pos hx, if_pos hx.symm, hx, h.table.mapped this thisThread hthis]
      rfl
    · rw [if_neg hx, if_neg (Ne.symm hx), Option.or_none]
  refine ⟨_, State.execve_eq hthis hlist List.mem_cons_self hthis, ⟨⟨?_, ?_, ?_, ?_⟩, ?_⟩,
    update_self _ _ _⟩
  · exact (h.table.map.erase _).insert _ _
  · intro u other hu
    rw [hat]
    rw [hsame] at hu
    exact h.table.mapped u other hu
  · intro pid u hu
    rw [hat] at hu
    rw [hsame]
    exact h.table.known pid u hu
  · intro u other hu
    rw [hsame] at hu
    exact h.table.nonzero u other hu
  · apply h.lists.keepOnly hmem rfl
    intro u _
    unfold State.parentOf
    rw [hsame]

end Processes

/-! ## §5. Runs. -/

section Runs

variable {hash : Pid → Nat} {s s' : State}

/-- `Thread::get` of a process's id is its main thread. -/
theorem Inv.get_pid (h : Inv hash s) {p : ProcPtr} {main : ThreadPtr}
    (hhead : (s.fThreads p).head? = some main) :
    ∃ pid, s.pid p = some pid ∧ s.get hash pid = some main := by
  obtain ⟨rest, hlist⟩ := List.head?_eq_some_iff.mp hhead
  have hmem : main ∈ s.fThreads p := by
    rw [hlist]
    exact List.mem_cons_self
  obtain ⟨mainThread, hmain, _⟩ := h.lists.exists_of_mem hmem
  refine ⟨mainThread.pid, ?_, h.table.mapped main mainThread hmain⟩
  simp only [State.pid, hhead, hmain, Option.bind_eq_bind, Option.bind_some]

/-- **One event** that meets the condition runs and keeps the invariant. -/
theorem Inv.exec (h : Inv hash s) {e : Event} (hproper : Proper s e) (hmeets : Meets hash s e) :
    ∃ s', s.exec hash e = some s' ∧ Inv hash s' := by
  cases e with
  | create p t => exact h.create hproper hmeets
  | destroy t => exact h.destroy hproper.1 hproper.2
  | exit p this => exact h.minimize hproper this
  | execve this =>
      obtain ⟨thread, hthread, _⟩ := hproper
      obtain ⟨s', hs', hinv, _⟩ := h.execve hthread (hmeets thread hthread)
      exact ⟨s', hs', hinv⟩

/-- Who the id of the process leads to after the last event, if that was an
`execve`. -/
def CallerTakesPid (hash : Pid → Nat) (hist : List Event) (s : State) : Prop :=
  ∀ this, hist.head? = some (.execve this) →
    ∃ p pid, s.parentOf this = some p ∧ s.pid p = some pid ∧ s.get hash pid = some this

theorem callerTakesPid_step (h : Inv hash s) {hist : List Event} {e : Event}
    (hproper : Proper s e) (hmeets : Meets hash s e) (hstep : Step hash s e s') :
    CallerTakesPid hash (e :: hist) s' := by
  intro this hthis
  rw [List.head?_cons, Option.some_inj] at hthis
  subst hthis
  obtain ⟨thread, hthread, _⟩ := hproper
  obtain ⟨m, hm, hinv, hlist⟩ := h.execve hthread (hmeets thread hthread)
  have heq : m = s' := Option.some_inj.mp (hm.symm.trans hstep)
  subst heq
  have hhead : (m.fThreads thread.parent).head? = some this := by
    rw [hlist]
    rfl
  have hmem : this ∈ m.fThreads thread.parent := by
    rw [hlist]
    exact List.mem_singleton_self this
  obtain ⟨pid, hpid, hget⟩ := hinv.get_pid hhead
  exact ⟨thread.parent, pid, hinv.lists.listed thread.parent this hmem, hpid, hget⟩

/-- **The thread table.**  In every run whose creations do not take the counter
past its end and whose `execve`s come from main threads: existing threads have
pairwise distinct, non-zero ids, `s_threads` leads from the id of each to it,
right after an `execve` the id of the process leads to the caller, and every
further event that meets the condition is carried out. -/
theorem thread_table (hash : Pid → Nat) {hist : List Event} {s : State}
    (hrun : GuardedRun (Step hash) (fun _ s e => Proper s e ∧ Meets hash s e) State.init hist s) :
    (∀ t u thread other, s.threads t = some thread → s.threads u = some other → t ≠ u →
      thread.pid ≠ other.pid)
    ∧ (∀ t thread, s.threads t = some thread →
      thread.pid ≠ 0 ∧ s.get hash thread.pid = some t)
    ∧ CallerTakesPid hash hist s
    ∧ ∀ e, Proper s e → Meets hash s e → ∃ s', Step hash s e s' := by
  have hinv : Inv hash s ∧ CallerTakesPid hash hist s := by
    refine hrun.historyInvariant (fun hist s => Inv hash s ∧ CallerTakesPid hash hist s) ?_ ?_
    · exact ⟨Inv.init hash, fun this hthis => absurd hthis (by simp)⟩
    · intro hist m e m' hm hC hstep
      obtain ⟨m'', hexec, hinv⟩ := hm.1.exec hC.1 hC.2
      have heq : m'' = m' := Option.some_inj.mp (hexec.symm.trans hstep)
      exact ⟨heq ▸ hinv, callerTakesPid_step hm.1 hC.1 hC.2 hstep⟩
  refine ⟨?_, ?_, hinv.2, ?_⟩
  · intro t u thread other ht hu hne hpid
    exact hne (hinv.1.table.injective ht hu hpid)
  · intro t thread ht
    exact ⟨hinv.1.table.nonzero t thread ht, hinv.1.table.mapped t thread ht⟩
  · intro e hproper hmeets
    obtain ⟨s', hs', _⟩ := hinv.1.exec hproper hmeets
    exact ⟨s', hs'⟩

end Runs

/-- A process that ends from its second thread, and another one whose main
thread calls `execve`; most recent event first. -/
def swapAndExecve : List Event :=
  [.execve 100, .create 1 102, .create 1 100, .exit 0 101, .create 0 101, .create 0 100]

theorem thread_table_swap : ∃ s,
    GuardedRun (Step BitVec.toNat) (fun _ s e => Proper s e ∧ Meets BitVec.toNat s e) State.init
      swapAndExecve s
    ∧ s.get BitVec.toNat 1 = some 101
    ∧ ∃ p pid, s.parentOf 100 = some p ∧ s.pid p = some pid
      ∧ s.get BitVec.toNat pid = some 100 := by
  have r₀ : GuardedRun (Step BitVec.toNat)
      (fun _ s e => Proper s e ∧ Meets BitVec.toNat s e) State.init [] State.init := .init
  have r₁ := r₀.carriedOut (.create 0 100)
    ⟨rfl, by decide, 1, by decide, by decide +kernel⟩ (by decide +kernel)
  have r₂ := r₁.carriedOut (.create 0 101)
    ⟨by show State.threads _ 101 = none; decide +kernel, by decide +kernel, 2, by decide +kernel, by decide +kernel⟩
    (by decide +kernel)
  have r₃ := r₂.carriedOut (.exit 0 101)
    ⟨by show State.fThreads _ 0 ≠ []; decide +kernel, trivial⟩ (by decide +kernel)
  have r₄ := r₃.carriedOut (.create 1 100)
    ⟨by show State.threads _ 100 = none; decide +kernel, by decide +kernel, 3, by decide +kernel, by decide +kernel⟩
    (by decide +kernel)
  have r₅ := r₄.carriedOut (.create 1 102)
    ⟨by show State.threads _ 102 = none; decide +kernel, by decide +kernel, 4, by decide +kernel, by decide +kernel⟩
    (by decide +kernel)
  have r₆ := r₅.carriedOut (.execve 100)
    ⟨⟨⟨1, 3⟩, by decide +kernel, by decide +kernel⟩, fun thread hthread => by
      have h : thread = ⟨1, 3⟩ := by
        rw [← Option.some_inj, ← hthread]
        decide +kernel
      subst h
      decide +kernel⟩ (by decide +kernel)
  have htable := thread_table BitVec.toNat r₆
  refine ⟨_, r₆, ?_, htable.2.2.1 100 rfl⟩
  exact (htable.2.1 101 ⟨0, 1⟩ (by decide +kernel)).2

/-- **`execve` from the second thread**: the old main thread keeps the id, the
table still leads to it, and the caller has the same id and no entry. -/
theorem second_thread_execve : ∃ s,
    GuardedRun (Step BitVec.toNat) (fun _ s e => Proper s e) State.init
      [.execve 101, .create 0 101, .create 0 100] s
    ∧ s.fThreads 0 = [101] ∧ s.pid 0 = some 1
    ∧ s.get BitVec.toNat 1 = some 100
    ∧ s.threads 100 = some ⟨0, 1⟩ ∧ s.threads 101 = some ⟨0, 1⟩ := by
  have r₀ : GuardedRun (Step BitVec.toNat) (fun _ s e => Proper s e) State.init [] State.init :=
    .init
  have r₁ := r₀.carriedOut (.create 0 100) rfl (by decide +kernel)
  have r₂ := r₁.carriedOut (.create 0 101) (by show State.threads _ 101 = none; decide +kernel)
    (by decide +kernel)
  have r₃ := r₂.carriedOut (.execve 101) ⟨⟨0, 2⟩, by decide +kernel, by decide +kernel⟩
    (by decide +kernel)
  refine ⟨_, r₃, ?_, ?_, ?_, ?_, ?_⟩ <;> decide +kernel

end MierOS.Tasking.ThreadTable
