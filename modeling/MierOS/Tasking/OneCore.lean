/-
  MierOS.Tasking.OneCore — a thread runs on one core.

  The claim of the scheduler is `OneCore`: no two cores have the same current
  thread, the run queue has no thread twice, and a RUNNING current thread is
  not queued.  Two things break it.

  * `SleepQueue::sleep` marks its thread and lists it before the core has
    switched away; a wakeup queues the thread, and ANOTHER core takes it
    from the queue while the first still runs it.
  * `get_optimal_thread` unlinks behind the last node, not behind the node
    before the thread it takes, which then stays queued.

  Main results: `Inv.schedule`, `Inv.pushBack`, `Inv.goToSleep`, `one_core_iff`,
  `sleeper_runs_twice`.
-/
import MierOS.Tasking.RunQueue

namespace MierOS.Tasking.Scheduling

open Lib
open Function (update update_of_ne update_self)

/-! ## §1. The property and the condition. -/

/-- **A thread runs on one core.** -/
structure OneCore (k : Kernel) : Prop where
  exclusive : ∀ c c', c ≠ c' → k.current c ≠ 0 → k.current c ≠ k.current c'
  once : ∀ i j, i ≠ j → k.queueAt i ≠ 0 → k.queueAt i ≠ k.queueAt j
  running : ∀ c, k.current c ≠ 0 → k.state (k.current c) = .RUNNING → ¬ k.Queued (k.current c)

/-- The core's own thread is RUNNING, so `schedule` queues it again. -/
def Kernel.OwnRunning (k : Kernel) (core : Nat) : Prop :=
  k.current core ≠ 0 ∧ k.state (k.current core) = .RUNNING

/-- The core has to take a thread that does not prefer it. -/
def Kernel.Steals (k : Kernel) (core : Nat) : Prop :=
  ¬ k.OwnRunning core ∧ ∀ t, k.Queued t → k.preferred t ≠ core

/-- **The condition on a step.**  A core that has to steal finds the first
thread of the queue off every other core, and no thread without a preference
behind a first one that has a preference.  A thread that is put on the queue is
not the last one there already, nor, where its state is kept, RUNNING on a
core. -/
def Meets (k : Kernel) : Event → Prop
  | .schedule core _ locked => locked = true → k.Steals core →
      (∀ c, c ≠ core → k.first ≠ 0 → k.current c ≠ k.first)
        ∧ (k.preferred k.first = -1 ∨ ∀ t, k.Queued t → k.preferred t ≠ -1)
  | .scheduleThread thread => thread ≠ k.last
      ∧ (k.state thread = .RUNNING → ∀ c, k.current c ≠ thread)
  | .wakeup thread => thread ≠ k.last
  | .sleep _ _ => True
  | .wakeupNext queue => ∀ tid rest, k.sleeping queue = tid :: rest →
      Thread.get k tid ≠ 0 → Thread.get k tid ≠ k.last

/-- A step that meets the condition. -/
def MeetingStep (coreCount sizeofThread : Nat) (k : Kernel) (e : Event) (k' : Kernel) : Prop :=
  Step coreCount sizeofThread k e k' ∧ Meets k e

/-- **The invariant**, with the threads that are queued. -/
structure Inv (k : Kernel) (queue : List ThreadPtr) : Prop where
  chain : Chain k queue
  exclusive : ∀ c c', c ≠ c' → k.current c ≠ 0 → k.current c ≠ k.current c'
  running : ∀ c, k.current c ≠ 0 → k.state (k.current c) = .RUNNING → k.current c ∉ queue
  preferred : ∀ c, k.current c ≠ 0 → k.preferred (k.current c) = c
  booted : ∀ c, (k.schedulers c).firstSwitch = true → k.current c = 0

variable {k k' : Kernel} {queue : List ThreadPtr} {t : ThreadPtr}

theorem Inv.oneCore (h : Inv k queue) : OneCore k where
  exclusive := h.exclusive
  once := fun _ _ hij hi => h.chain.queueAt_injective hij hi
  running := fun c hc hrun hq => h.running c hc hrun (h.chain.queued_iff.mp hq)

theorem inv_boot (threads : ThreadPtr → Thread) (byPid : Int → ThreadPtr)
    (idleKsp : Nat → Nat) : Inv (Kernel.boot threads byPid idleKsp) [] where
  chain := ⟨rfl, List.not_mem_nil, List.nodup_nil, Or.inl rfl⟩
  exclusive := fun _ _ _ hc => absurd rfl hc
  running := fun _ hc => absurd rfl hc
  preferred := fun _ hc => absurd rfl hc
  booted := fun _ _ => rfl

/-! ## §2. Putting a thread on the queue, and going to sleep. -/

/-- The cores see no change when schedulers, states of their threads and
preferences stay. -/
theorem Inv.requeue {queue' : List ThreadPtr} (h : Inv k queue) (hchain : Chain k' queue')
    (hstate : k'.state = k.state) (hpref : k'.preferred = k.preferred)
    (hsch : k'.schedulers = k.schedulers)
    (hnew : ∀ c, k.current c ≠ 0 → k.state (k.current c) = .RUNNING → k.current c ∉ queue') :
    Inv k' queue' := by
  have hcur : ∀ c, k'.current c = k.current c := by
    intro c
    show (k'.schedulers c).currentThread = (k.schedulers c).currentThread
    rw [hsch]
  constructor
  case chain => exact hchain
  case exclusive =>
    intro c c' hne hc
    rw [hcur] at hc ⊢
    rw [hcur]
    exact h.exclusive c c' hne hc
  case running =>
    intro c hc hrun
    rw [hcur] at hc hrun ⊢
    rw [hstate] at hrun
    exact hnew c hc hrun
  case preferred =>
    intro c hc
    rw [hcur] at hc ⊢
    rw [hpref]
    exact h.preferred c hc
  case booted =>
    intro c hfirst
    rw [hcur]
    rw [hsch] at hfirst
    exact h.booted c hfirst

/-- **Queueing a thread** that is not the tail and not RUNNING on a core. -/
theorem Inv.pushBack (h : Inv k queue) (ht : t ≠ 0) (hlast : t ≠ k.last)
    (hidle : k.state t = .RUNNING → ∀ c, k.current c ≠ t) :
    ∃ queue', Inv (ThreadQueue.pushBack k t) queue' ∧ t ∈ queue'
      ∧ ∀ x ∈ queue', x = t ∨ x ∈ queue := by
  obtain ⟨queue', hchain, hmem, hsub⟩ := h.chain.pushBack ht hlast
  refine ⟨queue', ?_, hmem, hsub⟩
  apply h.requeue hchain (pushBack_state k t) (pushBack_preferred k t) (pushBack_schedulers k t)
  intro c hc hrun hin
  rcases hsub _ hin with heq | hold
  · rw [heq] at hrun
    exact hidle hrun c heq
  · exact h.running c hc hrun hold

/-- Taking a thread out of the RUNNING state. -/
theorem Inv.setState {st : ThreadState} (h : Inv k queue) (hst : st ≠ .RUNNING) :
    Inv (k.setState t st) queue where
  chain := h.chain.of_eq (k.setState_next t st) rfl rfl
  exclusive := h.exclusive
  running := by
    intro c hc hrun
    rw [Kernel.setState_state] at hrun
    -- the thread that is changed is not RUNNING any more
    by_cases hct : k.current c = t
    · have hself : update k.state t st (k.current c) = st := by
        rw [hct, update_self]
      exact absurd (hself.symm.trans hrun) hst
    · apply h.running c hc
      have hother : update k.state t st (k.current c) = k.state (k.current c) :=
        update_of_ne hct st k.state
      exact hother.symm.trans hrun
  preferred := by
    intro c hc
    rw [Kernel.setState_preferred]
    exact h.preferred c hc
  booted := h.booted

/-- **`Thread::wakeup`.** -/
theorem Inv.wakeup (h : Inv k queue) (ht : t ≠ 0) (hlast : t ≠ k.last) :
    ∃ queue', Inv (Thread.wakeup k t) queue' := by
  have hset : Inv (k.setState t .RUNNABLE) queue := h.setState (by decide)
  -- `wakeup` marks it RUNNABLE first, so it may be current on a core
  have hidle : (k.setState t .RUNNABLE).state t = .RUNNING →
      ∀ c, (k.setState t .RUNNABLE).current c ≠ t := by
    intro hrun
    rw [Kernel.setState_state, update_self] at hrun
    exact absurd hrun (by decide)
  obtain ⟨queue', hinv, _⟩ := hset.pushBack ht hlast hidle
  exact ⟨queue', hinv⟩

/-- The sleep queues are outside the invariant. -/
theorem Inv.withSleeping (h : Inv k queue) (sleeping : Nat → List Int) :
    Inv { k with sleeping := sleeping } queue :=
  ⟨h.chain.of_eq rfl rfl rfl, h.exclusive, h.running, h.preferred, h.booted⟩

/-- **`SleepQueue::sleep`**, whatever the thread's place in the queue. -/
theorem Inv.goToSleep {fuel sizeofThread core q : Nat} (h : Inv k queue)
    (hcur : k.current core ≠ 0)
    (hrun : SleepQueue.sleep fuel sizeofThread k core q = some k') :
    ∃ queue', Inv k' queue' := by
  unfold SleepQueue.sleep Thread.sleep Scheduler.removeThread at hrun
  cases herase : ThreadQueue.erase fuel sizeofThread
      (k.setState (k.current core) .SLEEPING) (k.current core) with
  | none =>
      simp only [herase, Option.map_none] at hrun
      exact absurd hrun (by simp)
  | some res =>
      obtain ⟨k₁, found⟩ := res
      simp only [herase, Option.map_some] at hrun
      injection hrun with hk
      -- `remove_thread` finds the thread at most at the head of the queue
      have hset : Inv (k.setState (k.current core) .SLEEPING) queue := h.setState (by decide)
      obtain ⟨queue', hchain, hsub⟩ := hset.chain.erase hcur herase
      obtain ⟨hstate, hpref, hsch⟩ := erase_frame herase
      rw [← hk]
      refine ⟨queue', Inv.withSleeping ?_ _⟩
      apply hset.requeue hchain hstate hpref hsch
      intro c hc hrunning hin
      exact hset.running c hc hrunning (hsub _ hin)

/-! ## §3. The task switch. -/

theorem current_setScheduler (k : Kernel) (core : Nat) (s : Scheduler) (c : Nat) :
    (k.setScheduler core s).current c = if c = core then s.currentThread else k.current c := by
  show (update k.schedulers core s c).currentThread = _
  by_cases hc : c = core
  · rw [hc, update_self, if_pos rfl]
  · rw [update_of_ne hc, if_neg hc]
    rfl

/-- A core that is left without a thread. -/
theorem Inv.leaveCore (h : Inv k queue) (core : Nat) {s : Scheduler} (hs : s.currentThread = 0) :
    Inv (k.setScheduler core s) queue := by
  have hcur : ∀ c, (k.setScheduler core s).current c ≠ 0 →
      c ≠ core ∧ (k.setScheduler core s).current c = k.current c := by
    intro c hc
    rw [current_setScheduler] at hc ⊢
    by_cases heq : c = core
    · rw [if_pos heq] at hc
      exact absurd hs hc
    · exact ⟨heq, if_neg heq⟩
  constructor
  case chain => exact h.chain.of_eq rfl rfl rfl
  case exclusive =>
    intro c c' hne hc heq
    have hc' : (k.setScheduler core s).current c' ≠ 0 := heq ▸ hc
    rw [(hcur c hc).2, (hcur c' hc').2] at heq
    rw [(hcur c hc).2] at hc
    exact h.exclusive c c' hne hc heq
  case running =>
    intro c hc hrun
    have hsame := (hcur c hc).2
    rw [hsame] at hc hrun ⊢
    exact h.running c hc hrun
  case preferred =>
    intro c hc
    have hsame := (hcur c hc).2
    rw [hsame] at hc ⊢
    exact h.preferred c hc
  case booted =>
    intro c hfirst
    rw [current_setScheduler]
    by_cases heq : c = core
    · rw [if_pos heq]
      exact hs
    · rw [if_neg heq]
      rw [Kernel.setScheduler_schedulers, update_of_ne heq] at hfirst
      exact h.booted c hfirst

theorem Inv.setKsp (h : Inv k queue) (t : ThreadPtr) (ksp : Nat) : Inv (k.setKsp t ksp) queue := by
  apply h.requeue (h.chain.of_eq (k.setKsp_next t ksp) rfl rfl) (k.setKsp_state t ksp)
    (k.setKsp_preferred t ksp) rfl
  exact h.running

/-- A thread outside the queue is not its tail. -/
theorem Inv.ne_last (h : Inv k queue) (ht : t ≠ 0) (hmem : t ∉ queue) : t ≠ k.last := by
  intro heq
  rcases h.chain.tail with h0 | hget
  · exact ht (heq.trans h0)
  · rw [← heq] at hget
    exact hmem (List.mem_of_getLast? hget)

/-- **The first half of `schedule`**: the core has no thread any more, and its
RUNNING one is queued. -/
theorem Inv.switchOut (h : Inv k queue) (core currentState : Nat) :
    ∃ queue', Inv (Scheduler.switchOut k core currentState) queue'
      ∧ (∀ c, (Scheduler.switchOut k core currentState).current c
          = if c = core then 0 else k.current c)
      ∧ (k.OwnRunning core → ∃ x ∈ queue',
          (Scheduler.switchOut k core currentState).preferred x = core)
      ∧ (¬ k.OwnRunning core → queue' = queue
          ∧ (Scheduler.switchOut k core currentState).first = k.first
          ∧ (Scheduler.switchOut k core currentState).preferred = k.preferred) := by
  have hidle : k.current core = 0 → ¬ k.OwnRunning core := fun h0 hown => hown.1 h0
  unfold Scheduler.switchOut
  by_cases hfirst : (k.schedulers core).firstSwitch = false
  · simp only [if_pos hfirst]
    by_cases h0 : (k.schedulers core).currentThread = 0
    · -- the core was idle
      simp only [if_pos h0]
      refine ⟨queue, h.leaveCore core h0, ?_, fun hown => absurd hown (hidle h0),
        fun _ => ⟨rfl, rfl, rfl⟩⟩
      intro c
      rw [current_setScheduler]
      show (if c = core then (k.schedulers core).currentThread else _) = _
      rw [h0]
    · simp only [if_neg h0]
      have hksp := h.setKsp (k.schedulers core).currentThread currentState
      have hstate : (k.setKsp (k.schedulers core).currentThread currentState).state
          (k.schedulers core).currentThread = k.state (k.current core) := by
        rw [Kernel.setKsp_state]
        rfl
      by_cases hrun : k.state (k.current core) = .RUNNING
      · -- its thread is RUNNING: it is not in the queue, and goes to the end of it
        rw [hstate]
        simp only [if_pos hrun]
        have hset : Inv ((k.setKsp (k.schedulers core).currentThread currentState).setState
            (k.schedulers core).currentThread .RUNNABLE) queue := hksp.setState (by decide)
        have hlast : (k.schedulers core).currentThread ≠ k.last :=
          h.ne_last h0 (h.running core h0 hrun)
        obtain ⟨queue', hinv, hmem, _⟩ := hset.pushBack h0 hlast (by
          intro hrunning
          rw [Kernel.setState_state, update_self] at hrunning
          exact absurd hrunning (by decide))
        refine ⟨queue', hinv.leaveCore core rfl, ?_, ?_, ?_⟩
        · intro c
          rw [current_setScheduler]
          show (if c = core then 0 else ((ThreadQueue.pushBack _ _).schedulers c).currentThread)
            = if c = core then 0 else k.current c
          rw [pushBack_schedulers]
          rfl
        · intro _
          refine ⟨(k.schedulers core).currentThread, hmem, ?_⟩
          rw [Kernel.setScheduler_preferred, pushBack_preferred, Kernel.setState_preferred,
            Kernel.setKsp_preferred]
          exact h.preferred core h0
        · intro hown
          exact absurd ⟨h0, hrun⟩ hown
      · rw [hstate]
        simp only [if_neg hrun]
        refine ⟨queue, hksp.leaveCore core rfl, ?_, fun hown => absurd hown.2 hrun, ?_⟩
        · intro c
          rw [current_setScheduler]
          rfl
        · intro _
          refine ⟨rfl, rfl, ?_⟩
          rw [Kernel.setScheduler_preferred, Kernel.setKsp_preferred]
  · -- before the first switch the core has no thread
    simp only [if_neg hfirst]
    have h0 : k.current core = 0 := h.booted core (by simpa using hfirst)
    refine ⟨queue, h.leaveCore core h0, ?_, fun hown => absurd hown (hidle h0),
      fun _ => ⟨rfl, rfl, rfl⟩⟩
    intro c
    rw [current_setScheduler]
    show (if c = core then k.current core else _) = _
    rw [h0]

theorem switchOut_firstSwitch (k : Kernel) (core currentState : Nat) :
    ((Scheduler.switchOut k core currentState).schedulers core).firstSwitch = false := by
  unfold Scheduler.switchOut
  by_cases hfirst : (k.schedulers core).firstSwitch = false
  · simp only [if_pos hfirst]
    split
    · rw [Kernel.setScheduler_schedulers, update_self]
      exact hfirst
    · rw [Kernel.setScheduler_schedulers, update_self]
      exact hfirst
  · simp only [if_neg hfirst]
    rw [Kernel.setScheduler_schedulers, update_self]

/-! ### What `switchIn` shows, when there is a thread to resume. -/

section SwitchIn

variable (k) (core : Nat) (ht : t ≠ 0)

include ht

theorem switchIn_current (c : Nat) :
    (Scheduler.switchIn k core t).1.current c = if c = core then t else k.current c := by
  unfold Scheduler.switchIn
  simp only [if_neg ht]
  rw [current_setScheduler]
  rfl

theorem switchIn_state :
    (Scheduler.switchIn k core t).1.state = update k.state t .RUNNING := by
  unfold Scheduler.switchIn
  simp only [if_neg ht]
  rw [Kernel.setScheduler_state, Kernel.setState_state]

theorem switchIn_preferred : (Scheduler.switchIn k core t).1.preferred = k.preferred := by
  unfold Scheduler.switchIn
  simp only [if_neg ht]
  rw [Kernel.setScheduler_preferred, Kernel.setState_preferred]

/-- The links are those `get_optimal_thread` left. -/
theorem switchIn_next : (Scheduler.switchIn k core t).1.next = k.next := by
  unfold Scheduler.switchIn
  simp only [if_neg ht]
  rw [Kernel.setScheduler_next, Kernel.setState_next]

theorem switchIn_ends : (Scheduler.switchIn k core t).1.first = k.first
    ∧ (Scheduler.switchIn k core t).1.last = k.last := by
  unfold Scheduler.switchIn
  simp only [if_neg ht]
  exact ⟨rfl, rfl⟩

theorem switchIn_firstSwitch (c : Nat) :
    ((Scheduler.switchIn k core t).1.schedulers c).firstSwitch
      = (k.schedulers c).firstSwitch := by
  unfold Scheduler.switchIn
  simp only [if_neg ht]
  rw [Kernel.setScheduler_schedulers, Kernel.setState_schedulers]
  by_cases heq : c = core
  · rw [heq, update_self]
  · rw [update_of_ne heq]

theorem switchIn_queued {x : ThreadPtr} :
    (Scheduler.switchIn k core t).1.Queued x ↔ k.Queued x := by
  unfold Kernel.Queued Kernel.queueAt
  rw [switchIn_next k core ht, (switchIn_ends k core ht).1]

end SwitchIn

/-- **The second half of `schedule`** with a thread that no other core has. -/
theorem Inv.resume {k₂ : Kernel} {core : Nat} (h : Inv k queue)
    (hbooted : (k.schedulers core).firstSwitch = false)
    (htaken : Taken k k₂ core queue t)
    (hframe : k₂.state = k.state ∧ k₂.schedulers = k.schedulers)
    (hoff : ∀ c, c ≠ core → k.current c ≠ t) :
    ∃ queue', Inv (Scheduler.switchIn k₂ core t).1 queue' := by
  obtain ⟨queue', hchain, hout, hsub⟩ := htaken.rest
  have ht : t ≠ 0 := fun h0 => h.chain.nonnull (h0 ▸ htaken.mem)
  have hcur : ∀ c, (Scheduler.switchIn k₂ core t).1.current c
      = if c = core then t else k.current c := by
    intro c
    rw [switchIn_current k₂ core ht]
    show (if c = core then t else (k₂.schedulers c).currentThread) = _
    rw [hframe.2]
    rfl
  have hstate : (Scheduler.switchIn k₂ core t).1.state = update k.state t .RUNNING := by
    rw [switchIn_state k₂ core ht, hframe.1]
  have hpref : (Scheduler.switchIn k₂ core t).1.preferred
      = update k.preferred t core := by
    rw [switchIn_preferred k₂ core ht, htaken.preferred]
  refine ⟨queue', ?_, ?_, ?_, ?_, ?_⟩
  case refine_1 =>
    have hends := switchIn_ends k₂ core ht
    exact hchain.of_eq (switchIn_next k₂ core ht) hends.1 hends.2
  case refine_2 =>
    -- the core itself has the thread now, and no other core has it
    intro c c' hne hc
    rw [hcur] at hc ⊢
    rw [hcur]
    by_cases heq : c = core
    · have hne' : c' ≠ core := fun h' => hne (heq.trans h'.symm)
      rw [if_pos heq, if_neg hne']
      exact (hoff c' hne').symm
    · rw [if_neg heq] at hc ⊢
      by_cases heq' : c' = core
      · rw [if_pos heq']
        exact hoff c heq
      · rw [if_neg heq']
        exact h.exclusive c c' hne hc
  case refine_3 =>
    intro c hc hrun
    rw [hcur] at hc hrun ⊢
    by_cases heq : c = core
    · rw [if_pos heq]
      exact hout
    · rw [if_neg heq] at hc hrun ⊢
      rw [hstate, update_of_ne (hoff c heq)] at hrun
      exact fun hin => h.running c hc hrun (hsub _ hin)
  case refine_4 =>
    -- the search writes the core into the thread it takes
    intro c hc
    rw [hcur] at hc ⊢
    rw [hpref]
    by_cases heq : c = core
    · rw [if_pos heq, update_self, heq]
    · rw [if_neg heq] at hc ⊢
      rw [update_of_ne (hoff c heq)]
      exact h.preferred c hc
  case refine_5 =>
    intro c hfirst
    rw [switchIn_firstSwitch k₂ core ht, hframe.2] at hfirst
    have heq : c ≠ core := by
      intro heq
      rw [heq, hbooted] at hfirst
      exact absurd hfirst (by decide)
    rw [hcur, if_neg heq]
    exact h.booted c hfirst

/-- The thread a core takes is on no other core, when the core can take one of
its own or the first thread is on no other core. -/
theorem Inv.taken_off {k₂ : Kernel} {core : Nat} (h : Inv k queue)
    (htaken : Taken k k₂ core queue t)
    (hoff : (∃ x ∈ queue, k.preferred x = core) ∨ ∀ c, c ≠ core → k.current c ≠ k.first) :
    ∀ c, c ≠ core → k.current c ≠ t := by
  have ht : t ≠ 0 := fun h0 => h.chain.nonnull (h0 ▸ htaken.mem)
  -- a current thread prefers the core it is on
  have hown : k.preferred t = core → ∀ c, c ≠ core → k.current c ≠ t := by
    intro hpref c hne heq
    have hc : k.current c ≠ 0 := heq ▸ ht
    have hprefc := h.preferred c hc
    rw [heq, hpref] at hprefc
    exact hne (Int.natCast_inj.mp hprefc).symm
  intro c hne
  by_cases hex : ∃ x ∈ queue, k.preferred x = core
  · exact hown (htaken.own hex) c hne
  · have hfirst : t = k.first := htaken.steal (fun x hx hxc => hex ⟨x, hx, hxc⟩)
    rw [hfirst]
    exact hoff.resolve_left hex c hne

/-- **What a call of `schedule` does**: nothing without the lock, else it
switches out, searches and switches in. -/
theorem schedule_cases {fuel core currentState : Nat} {locked : Bool}
    {resume : Scheduler.Resume}
    (hrun : Scheduler.schedule fuel k core currentState locked = some (k', resume)) :
    (locked = false ∧ k' = k)
      ∨ (locked = true ∧ ∃ k₂ best,
          ThreadQueue.getOptimalThread fuel (Scheduler.switchOut k core currentState) core
              = some (k₂, best)
            ∧ k' = (Scheduler.switchIn k₂ core best).1) := by
  unfold Scheduler.schedule at hrun
  by_cases hlocked : locked = false
  · rw [if_pos hlocked] at hrun
    injection hrun with hrun
    injection hrun with hk _
    exact Or.inl ⟨hlocked, hk.symm⟩
  · rw [if_neg hlocked] at hrun
    right
    cases hopt : ThreadQueue.getOptimalThread fuel (Scheduler.switchOut k core currentState)
        core with
    | none =>
        rw [hopt] at hrun
        exact absurd hrun (by simp)
    | some res =>
        obtain ⟨k₂, best⟩ := res
        rw [hopt] at hrun
        injection hrun with hk
        refine ⟨by simpa using hlocked, k₂, best, rfl, ?_⟩
        rw [hk]

/-- The condition that the search unlinks what it takes is about the queue and
the preferences only. -/
theorem Chain.searchable (h : Chain k queue) {s : Kernel} (hfirst : s.first = k.first)
    (hpref : s.preferred = k.preferred)
    (hcond : k.preferred k.first = -1 ∨ ∀ t, k.Queued t → k.preferred t ≠ -1) :
    s.preferred s.first = -1 ∨ ∀ x ∈ queue, s.preferred x ≠ -1 := by
  rw [hfirst, hpref]
  cases hcond with
  | inl h1 => exact Or.inl h1
  | inr h1 => exact Or.inr (fun x hx => h1 x (h.queued_iff.mpr hx))

/-- Who is served by a core that has the lock: some queued thread prefers it, or
it steals from the queue it found. -/
theorem Inv.switchOut_serves (h : Inv k queue) (core currentState : Nat) :
    ∃ queue', Inv (Scheduler.switchOut k core currentState) queue'
      ∧ (∀ c, (Scheduler.switchOut k core currentState).current c
          = if c = core then 0 else k.current c)
      ∧ ((∃ x ∈ queue', (Scheduler.switchOut k core currentState).preferred x = core)
        ∨ (k.Steals core ∧ queue' = queue
          ∧ (Scheduler.switchOut k core currentState).first = k.first
          ∧ (Scheduler.switchOut k core currentState).preferred = k.preferred)) := by
  obtain ⟨queue', hinv, hcur, hown, hkeep⟩ := h.switchOut core currentState
  refine ⟨queue', hinv, hcur, ?_⟩
  by_cases hrunning : k.OwnRunning core
  · -- its own thread goes to the end of the queue and prefers the core
    exact Or.inl (hown hrunning)
  · obtain ⟨hq, hfirst, hpref⟩ := hkeep hrunning
    by_cases hex : ∃ x ∈ queue, k.preferred x = core
    · left
      rw [hq, hpref]
      exact hex
    · right
      refine ⟨⟨hrunning, ?_⟩, hq, hfirst, hpref⟩
      intro x hx hxc
      exact hex ⟨x, h.chain.queued_iff.mp hx, hxc⟩

/-- **`Scheduler::schedule`** under the condition. -/
theorem Inv.schedule {fuel core currentState : Nat} {locked : Bool} {resume : Scheduler.Resume}
    (h : Inv k queue) (hmeets : Meets k (.schedule core currentState locked))
    (hrun : Scheduler.schedule fuel k core currentState locked = some (k', resume)) :
    ∃ queue', Inv k' queue' := by
  cases schedule_cases hrun with
  | inl hskipped => exact ⟨queue, hskipped.2 ▸ h⟩
  | inr hdone =>
      obtain ⟨hlocked, k₂, best, hopt, hk'⟩ := hdone
      obtain ⟨queue₁, hinv, hcur, hserves⟩ := h.switchOut_serves core currentState
      have hbooted := switchOut_firstSwitch k core currentState
      have hcond : k.Steals core → _ := hmeets hlocked
      have hsafe : (∃ x ∈ queue₁, (Scheduler.switchOut k core currentState).preferred x = core)
          ∨ (Scheduler.switchOut k core currentState).preferred
              (Scheduler.switchOut k core currentState).first = -1
          ∨ ∀ x ∈ queue₁, (Scheduler.switchOut k core currentState).preferred x ≠ -1 := by
        cases hserves with
        | inl hex => exact Or.inl hex
        | inr hsteal =>
            obtain ⟨hsteals, hq, hfirst, hpref⟩ := hsteal
            right
            rw [hq]
            exact h.chain.searchable hfirst hpref (hcond hsteals).2
      rw [hk']
      cases getOptimalThread_takes hinv.chain hsafe hopt with
      | inl hempty =>
          -- nothing is queued: the core goes idle
          obtain ⟨_, hbest, hk₂⟩ := hempty
          rw [hbest, hk₂]
          refine ⟨queue₁, ?_⟩
          unfold Scheduler.switchIn
          rw [if_pos rfl]
          apply hinv.leaveCore core
          show (Scheduler.switchOut k core currentState).current core = 0
          rw [hcur, if_pos rfl]
      | inr htaken =>
          apply hinv.resume hbooted htaken (getOptimalThread_frame hopt)
          apply hinv.taken_off htaken
          cases hserves with
          | inl hex => exact Or.inl hex
          | inr hsteal =>
              obtain ⟨hsteals, _, hfirst, _⟩ := hsteal
              right
              intro c hne
              rw [hcur, if_neg hne, hfirst]
              apply (hcond hsteals).1 c hne
              rw [← hfirst]
              intro h0
              exact hinv.chain.nonnull (h0 ▸ hinv.chain.first_mem htaken.mem)

/-- On a state of the invariant `schedule` returns. -/
theorem Inv.schedule_returns (h : Inv k queue) (core currentState : Nat) (locked : Bool) :
    ∃ fuel, (Scheduler.schedule fuel k core currentState locked).isSome = true := by
  obtain ⟨queue₁, hinv, _⟩ := h.switchOut core currentState
  refine ⟨queue₁.length + 1, ?_⟩
  unfold Scheduler.schedule
  by_cases hlocked : locked = false
  · rw [if_pos hlocked]
    rfl
  · rw [if_neg hlocked]
    obtain ⟨⟨k₂, best⟩, hopt⟩ :=
      Option.isSome_iff_exists.mp (getOptimalThread_returns hinv.chain core)
    rw [hopt]
    rfl

/-- Core `0` runs thread `8`, and the threads `16` and `24` are queued. -/
theorem schedule_returns_busy :
    ∃ k : Kernel, k.current 0 = 8 ∧ k.state 8 = .RUNNING ∧ k.first = 16 ∧ k.next 16 = 24
      ∧ k.last = 24 ∧ ∃ fuel, (Scheduler.schedule fuel k 0 0 true).isSome = true := by
  have hboot := inv_boot (fun t => Thread.create (4096 * t) t) Int.toNat fun _ => 0
  obtain ⟨_, hqueued, -⟩ := hboot.pushBack (t := 8) (by decide) (by decide) fun hrun =>
    absurd hrun (by decide)
  have hmeets : Meets (ThreadQueue.pushBack (Kernel.boot (fun t => Thread.create (4096 * t) t)
      Int.toNat fun _ => 0) 8) (.schedule 0 0 true) :=
    fun _ _ => ⟨fun c _ _ => (by decide : (0 : Nat) ≠ 8), Or.inl rfl⟩
  -- core 0 takes thread 8, and two more are queued behind it
  obtain ⟨_, hserved⟩ := hqueued.schedule hmeets (rfl : Scheduler.schedule 2 _ 0 0 true = _)
  obtain ⟨_, hfirst, -⟩ := hserved.pushBack (t := 16) (by decide) (by decide) fun hrun =>
    absurd hrun (by decide)
  obtain ⟨_, hbusy, -⟩ := hfirst.pushBack (t := 24) (by decide) (by decide) fun hrun =>
    absurd hrun (by decide)
  exact ⟨_, rfl, rfl, rfl, rfl, rfl, hbusy.schedule_returns 0 0 true⟩

/-- **Every step that meets the condition keeps the invariant.** -/
theorem Inv.step {coreCount sizeofThread : Nat} {e : Event} (h : Inv k queue)
    (hst : Step coreCount sizeofThread k e k') (hmeets : Meets k e) :
    ∃ queue', Inv k' queue' := by
  cases hst with
  | schedule _ _ hrun => exact h.schedule hmeets hrun
  | scheduleThread hthread =>
      obtain ⟨queue', hinv, _⟩ := h.pushBack hthread hmeets.1 hmeets.2
      exact ⟨queue', hinv⟩
  | wakeup hthread => exact h.wakeup hthread hmeets
  | sleep _ _ hcurrent hrun => exact h.goToSleep hcurrent hrun
  | wakeupNext =>
      rename_i q
      unfold SleepQueue.wakeupNext
      cases hsleeping : k.sleeping q with
      | nil => exact ⟨queue, h⟩
      | cons tid rest =>
          have hpop := h.withSleeping (update k.sleeping q rest)
          show ∃ queue', Inv (if Thread.get k tid ≠ 0 then _ else _) queue'
          by_cases ht : Thread.get k tid ≠ 0
          · rw [if_pos ht]
            exact hpop.wakeup ht (hmeets tid rest hsleeping ht)
          · rw [if_neg ht]
            exact ⟨queue, hpop⟩

/-! ## §4. A step that does not meet the condition. -/

/-- Queueing the tail again puts it in the queue twice. -/
theorem not_oneCore_requeue (h : Chain k queue) (h0 : k.last ≠ 0) :
    ¬ OneCore (ThreadQueue.pushBack k k.last) := by
  intro hone
  obtain ⟨i, hi, hi'⟩ := h.pushBack_last h0
  apply hone.once i (i + 1) (by omega)
  · rw [hi]
    exact h0
  · rw [hi, hi']

/-- Queueing a thread that is RUNNING on a core. -/
theorem not_oneCore_running {c : Nat} (h : Inv k queue) (ht : t ≠ 0)
    (hcur : k.current c = t) (hrun : k.state t = .RUNNING) :
    ¬ OneCore (ThreadQueue.pushBack k t) := by
  intro hone
  have hmem : t ∉ queue := by
    rw [← hcur] at ht hrun ⊢
    exact h.running c ht hrun
  -- it was not queued, so `push_back` is the ordinary one
  obtain ⟨queue', hchain, hin, _⟩ := h.chain.pushBack ht (h.ne_last ht hmem)
  have hcur' : (ThreadQueue.pushBack k t).current c = t := by
    show ((ThreadQueue.pushBack k t).schedulers c).currentThread = t
    rw [pushBack_schedulers]
    exact hcur
  apply hone.running c
  · rw [hcur']
    exact ht
  · rw [hcur', pushBack_state]
    exact hrun
  · rw [hcur']
    exact hchain.queued_iff.mpr hin

theorem not_oneCore_wakeup (h : Inv k queue) (ht : t ≠ 0) (hlast : t = k.last) :
    ¬ OneCore (Thread.wakeup k t) := by
  have hset : Inv (k.setState t .RUNNABLE) queue := h.setState (by decide)
  have h0 : (k.setState t .RUNNABLE).last ≠ 0 := by
    show k.last ≠ 0
    rw [← hlast]
    exact ht
  have heq : (k.setState t .RUNNABLE).last = t := hlast.symm
  have hnot := not_oneCore_requeue hset.chain h0
  rw [heq] at hnot
  exact hnot

/-- **A core that steals against the condition** takes a thread another core
has, or one that stays queued. -/
theorem not_oneCore_schedule {fuel core currentState : Nat} {locked : Bool}
    {resume : Scheduler.Resume} (h : Inv k queue)
    (hnot : ¬ Meets k (.schedule core currentState locked))
    (hrun : Scheduler.schedule fuel k core currentState locked = some (k', resume)) :
    ¬ OneCore k' := by
  obtain ⟨hlocked, hnot⟩ := Classical.not_imp.mp hnot
  obtain ⟨hsteals, hnot⟩ := Classical.not_imp.mp hnot
  obtain ⟨queue₁, hinv, hcur, _, hkeep⟩ := h.switchOut core currentState
  obtain ⟨hq, hfirst, hpref⟩ := hkeep hsteals.1
  subst hq
  have hnone : ∀ x ∈ queue₁, (Scheduler.switchOut k core currentState).preferred x ≠ core := by
    rw [hpref]
    exact fun x hx => hsteals.2 x (h.chain.queued_iff.mpr hx)
  cases schedule_cases hrun with
  | inl hskipped => exact absurd (hlocked.symm.trans hskipped.1) (by simp)
  | inr hdone =>
      obtain ⟨_, k₂, best, hopt, hk'⟩ := hdone
      rw [hk']
      intro hone
      by_cases hskew : k.preferred k.first = -1 ∨ ∀ t, k.Queued t → k.preferred t ≠ -1
      · -- the first thread is taken, and it is on another core
        have hon : ∃ c, c ≠ core ∧ k.first ≠ 0 ∧ k.current c = k.first := by
          by_contra hoff
          apply hnot
          refine ⟨?_, hskew⟩
          intro c hne h0 heq
          exact hoff ⟨c, hne, h0, heq⟩
        obtain ⟨c, hne, h0, heq⟩ := hon
        -- the search works here, and takes the first thread of the queue
        have hsafe := h.chain.searchable hfirst hpref hskew
        cases getOptimalThread_takes hinv.chain (Or.inr hsafe) hopt with
        | inl hempty =>
            have hseg := h.chain.seg
            rw [hempty.1] at hseg
            exact h0 hseg
        | inr htaken =>
            have hbest : best = k.first := by
              rw [← hfirst]
              exact htaken.steal hnone
            have hb0 : best ≠ 0 := hbest ▸ h0
            have hcore := switchIn_current k₂ core hb0 core
            have hother := switchIn_current k₂ core hb0 c
            rw [if_pos rfl] at hcore
            rw [if_neg hne] at hother
            have hc₂ : k₂.current c = k.current c := by
              show (k₂.schedulers c).currentThread = _
              rw [(getOptimalThread_frame hopt).2]
              have hcc := hcur c
              rw [if_neg hne] at hcc
              exact hcc
            apply hone.exclusive core c hne.symm
            · rw [hcore]
              exact hb0
            · rw [hcore, hother, hc₂, heq, hbest]
      · -- the thread taken is still queued
        obtain ⟨hfirst1, hfree⟩ := not_or.mp hskew
        have hfree' : ∃ x ∈ queue₁, k.preferred x = -1 := by
          by_contra hno
          apply hfree
          intro x hx hx1
          exact hno ⟨x, h.chain.queued_iff.mp hx, hx1⟩
        have hqueued : k₂.Queued best := by
          apply getOptimalThread_skewed hinv.chain _ hnone _ hopt
          · rw [hfirst, hpref]
            exact hfirst1
          · rw [hpref]
            exact hfree'
        have hcore := switchIn_current k₂ core hqueued.1 core
        rw [if_pos rfl] at hcore
        apply hone.running core
        · rw [hcore]
          exact hqueued.1
        · rw [hcore, switchIn_state k₂ core hqueued.1, update_self]
        · rw [hcore]
          exact (switchIn_queued k₂ core hqueued.1).mpr hqueued

/-- **Every step that does not meet the condition breaks the property.** -/
theorem not_oneCore_step {coreCount sizeofThread : Nat} {e : Event} (h : Inv k queue)
    (hst : Step coreCount sizeofThread k e k') (hnot : ¬ Meets k e) : ¬ OneCore k' := by
  cases hst with
  | schedule _ _ hrun => exact not_oneCore_schedule h hnot hrun
  | @scheduleThread thread hthread =>
      -- either the tail is queued again, or a RUNNING thread is
      by_cases hlast : thread = k.last
      · rw [hlast] at hthread ⊢
        exact not_oneCore_requeue h.chain hthread
      · by_cases hbusy : k.state thread = .RUNNING ∧ ∃ c, k.current c = thread
        · obtain ⟨hrun, c, hc⟩ := hbusy
          exact not_oneCore_running h hthread hc hrun
        · exfalso
          apply hnot
          refine ⟨hlast, ?_⟩
          intro hrun c hc
          exact hbusy ⟨hrun, c, hc⟩
  | @wakeup thread hthread =>
      exact not_oneCore_wakeup h hthread (not_not.mp hnot)
  | sleep _ _ _ _ => exact absurd trivial hnot
  | @wakeupNext q =>
      unfold SleepQueue.wakeupNext
      cases hsleeping : k.sleeping q with
      | nil =>
          exfalso
          apply hnot
          intro tid rest hcons
          rw [hsleeping] at hcons
          exact absurd hcons (List.cons_ne_nil tid rest).symm
      | cons tid rest =>
          have hpop := h.withSleeping (update k.sleeping q rest)
          have hlast : Thread.get k tid ≠ 0 ∧ Thread.get k tid = k.last := by
            by_contra hok
            apply hnot
            intro tid' rest' hcons ht hlast
            rw [hsleeping] at hcons
            injection hcons with htid _
            subst htid
            exact hok ⟨ht, hlast⟩
          show ¬ OneCore (if Thread.get k tid ≠ 0 then _ else _)
          rw [if_pos hlast.1]
          exact not_oneCore_wakeup hpop hlast.1 hlast.2

/-! ## §5. Whole runs. -/

section Runs

variable {coreCount sizeofThread : Nat} {threads : ThreadPtr → Thread} {byPid : Int → ThreadPtr}
  {idleKsp : Nat → Nat}

theorem run_inv {hist : List Event}
    (hrun : Run (MeetingStep coreCount sizeofThread) (Kernel.boot threads byPid idleKsp) hist k) :
    ∃ queue, Inv k queue := by
  apply hrun.invariant (fun k => ∃ queue, Inv k queue)
  · exact ⟨[], inv_boot threads byPid idleKsp⟩
  · intro k e k' hinv hst
    obtain ⟨queue, h⟩ := hinv
    exact h.step hst.1 hst.2

/-- **A thread runs on one core** in every run whose steps meet the condition,
and the next step keeps it so exactly when it meets the condition too. -/
theorem one_core_iff {hist : List Event}
    (hrun : Run (MeetingStep coreCount sizeofThread) (Kernel.boot threads byPid idleKsp) hist k) :
    OneCore k
      ∧ ∀ e k', Step coreCount sizeofThread k e k' → (OneCore k' ↔ Meets k e) := by
  obtain ⟨queue, h⟩ := run_inv hrun
  refine ⟨h.oneCore, ?_⟩
  intro e k' hst
  constructor
  · intro hone
    by_contra hnot
    exact not_oneCore_step h hst hnot hone
  · intro hmeets
    obtain ⟨queue', h'⟩ := h.step hst hmeets
    exact h'.oneCore

end Runs

/-- Two cores, one thread: it is queued, core `0` takes it, and core `1` finds
nothing. -/
theorem one_core_iff_two :
    ∃ k, Run (MeetingStep 2 256)
        (Kernel.boot (fun t => Thread.create (4096 * t) t) Int.toNat (fun _ => 0))
        [.schedule 1 0 true, .schedule 0 0 true, .scheduleThread 8] k
      ∧ k.current 0 = 8 ∧ k.current 1 = 0 ∧ OneCore k := by
  have hex : ∃ k, Run (MeetingStep 2 256)
        (Kernel.boot (fun t => Thread.create (4096 * t) t) Int.toNat (fun _ => 0))
        [.schedule 1 0 true, .schedule 0 0 true, .scheduleThread 8] k
      ∧ k.current 0 = 8 ∧ k.current 1 = 0 := by
    refine ⟨_, Run.step (Run.step (Run.step Run.init ⟨Step.scheduleThread (by decide), ?_⟩)
      ⟨Step.schedule 2 (by decide) rfl, ?_⟩) ⟨Step.schedule 1 (by decide) rfl, ?_⟩, rfl, rfl⟩
    · exact ⟨by decide, fun hrun => absurd hrun (by decide)⟩
    · intro _ _
      refine ⟨?_, Or.inl rfl⟩
      intro c _ _
      show (0 : Nat) ≠ 8
      decide
    · intro _ _
      refine ⟨fun _ _ h0 => absurd rfl h0, Or.inr ?_⟩
      intro t ht
      obtain ⟨h0, i, hi⟩ := ht
      exact absurd ((Links.walk_null _ _ i).symm.trans hi) h0.symm
  obtain ⟨k, hrun, h0, h1⟩ := hex
  exact ⟨k, hrun, h0, h1, (one_core_iff hrun).1⟩

/-- **Woken before it has left its core**: thread `8` of core `0` goes to sleep,
is woken, and core `1` schedules first. -/
theorem sleeper_runs_twice :
    ¬ ∀ (hist : List Event) (k : Kernel), Run (Step 2 256)
        (Kernel.boot (fun t => Thread.create (4096 * t) t) Int.toNat (fun _ => 0)) hist k →
      OneCore k := by
  intro hclaim
  have hex : ∃ k, Run (Step 2 256)
        (Kernel.boot (fun t => Thread.create (4096 * t) t) Int.toNat (fun _ => 0))
        [.schedule 1 0 true, .wakeupNext 5, .sleep 0 5, .schedule 0 0 true, .scheduleThread 8] k
      ∧ k.current 0 = 8 ∧ k.current 1 = 8 :=
    ⟨_, Run.step (Run.step (Run.step (Run.step (Run.step Run.init
      (Step.scheduleThread (by decide))) (Step.schedule 2 (by decide) rfl))
      (Step.sleep 1 (by decide) (by decide) rfl)) Step.wakeupNext)
      (Step.schedule 2 (by decide) rfl), rfl, rfl⟩
  obtain ⟨k, hrun, h0, h1⟩ := hex
  apply (hclaim _ k hrun).exclusive 0 1 (by decide)
  · rw [h0]
    decide
  · rw [h0, h1]

end MierOS.Tasking.Scheduling
