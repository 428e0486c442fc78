/-
  MierOS.Tasking.Futex
  **`Futex::wait` and `Futex::wake`** of `futex.cpp` over the `SleepQueue` of
  `sleep_queue.cpp`, for any number of threads in any interleaving.

  A waiter takes two steps: the compare-exchange on the word, and then, under
  `f_access`, the marking and enqueueing of `SleepQueue::sleep`.  Nothing joins
  them.  A wake that falls between them finds the queue without the waiter, which
  then goes to sleep all the same.

  Main results: `WF`, `futex_wake_iff`.
-/
import MierOS.Lib.Run
import Mathlib.Data.Fintype.Card

namespace MierOS.Tasking.Futexes

open Lib
open Function (update update_of_ne update_self)

/-! ## §1. The steps. -/

/-- Where a thread is: not in `wait`; behind the compare-exchange; behind the critical
section of `SleepQueue::sleep`. -/
inductive Phase where
  | outside
  | checked
  | parked
  deriving Repr, DecidableEq

/-- The word, `f_sleeping`, which threads are `SLEEPING`, and where they are. -/
structure State (T : Type) where
  word : UInt32
  sleeping : List T
  asleep : T → Bool
  phase : T → Phase

/-- One atomic step. -/
inductive Event (T : Type) where
  /-- `wait(value)`, up to the compare-exchange. -/
  | wait (thread : T) (value : UInt32)
  /-- The critical section of `sleep()`. -/
  | sleep (thread : T)
  /-- The thread runs again and returns from `wait`. -/
  | ret (thread : T)
  /-- `wake(value)`. -/
  | wake (value : UInt32)
  /-- User code writes the word. -/
  | store (value : UInt32)
  deriving Repr, DecidableEq

variable {T : Type} [DecidableEq T]

/-- The loop of `SleepQueue::wakeup(count)` over the queue; `woke` is incremented by the
test that ends it as well. -/
def wakeupLoop (count : Nat) : List T → Nat → (T → Bool) → List T × Nat × (T → Bool)
  | [], woke, asleep => ([], woke + 1, asleep)
  | thread :: rest, woke, asleep =>
      if woke < count then
        wakeupLoop count rest (woke + 1) (update asleep thread false)
      else (thread :: rest, woke + 1, asleep)

/-- `Futex::wake(value)`: what it answers and the state after. -/
def wake (s : State T) (value : UInt32) : UInt32 × State T :=
  let (sleeping, woke, asleep) := wakeupLoop value.toNat s.sleeping 0 s.asleep
  (UInt32.ofNat woke, { s with sleeping := sleeping, asleep := asleep })

/-- A step, if the thread is where the step is; a `wait` whose compare-exchange fails
returns `EAGAIN`. -/
def exec (s : State T) : Event T → Option (State T)
  | .wait thread value =>
      if s.phase thread ≠ .outside then none
      else if s.word = value then
        some { s with word := value + 1, phase := update s.phase thread .checked }
      else some s
  | .sleep thread =>
      if s.phase thread ≠ .checked then none
      else
        some { s with
          asleep := update s.asleep thread true
          sleeping := s.sleeping ++ [thread]
          phase := update s.phase thread .parked }
  | .ret thread =>
      if s.phase thread = .parked ∧ s.asleep thread = false then
        some { s with phase := update s.phase thread .outside }
      else none
  | .wake value => some (wake s value).2
  | .store value => some { s with word := value }

def Step (s : State T) (e : Event T) (s' : State T) : Prop := exec s e = some s'

/-- No thread in `wait`. -/
def initial (word : UInt32) : State T where
  word := word
  sleeping := []
  asleep := fun _ => false
  phase := fun _ => .outside

/-- The threads inside `wait`. -/
def inside [Fintype T] (s : State T) : Finset T := Finset.univ.filter fun t => s.phase t ≠ .outside

/-! ## §2. The invariant. -/

/-- **Who sleeps is queued, and parked.** -/
structure WF (s : State T) : Prop where
  nodup : s.sleeping.Nodup
  asleep_iff : ∀ t, s.asleep t = true ↔ t ∈ s.sleeping
  parked : ∀ t ∈ s.sleeping, s.phase t = .parked

variable {s s' : State T} {t : T} {e : Event T} {n : UInt32}

omit [DecidableEq T] in
theorem wf_initial (word : UInt32) : WF (initial word : State T) :=
  ⟨List.nodup_nil, fun t => by simp [initial], fun t ht => absurd ht List.not_mem_nil⟩

/-- **What `wakeup` does**: the first threads go, and these are awake. -/
theorem wakeupLoop_spec (count : Nat) (sleeping : List T) : ∀ (woke : Nat) (asleep : T → Bool),
    (wakeupLoop count sleeping woke asleep).1 = sleeping.drop (count - woke)
      ∧ ∀ t, (wakeupLoop count sleeping woke asleep).2.2 t = true
          ↔ asleep t = true ∧ t ∉ sleeping.take (count - woke) := by
  induction sleeping with
  | nil => intro woke asleep; simp [wakeupLoop]
  | cons thread rest ih =>
      intro woke asleep
      unfold wakeupLoop
      by_cases hlt : woke < count
      · obtain ⟨hqueue, hasleep⟩ := ih (woke + 1) (update asleep thread false)
        obtain ⟨k, hk⟩ : ∃ k, count - woke = k + 1 := ⟨count - woke - 1, by omega⟩
        rw [if_pos hlt, hk, List.drop_succ_cons, List.take_succ_cons]
        rw [show count - (woke + 1) = k by omega] at hqueue hasleep
        refine ⟨hqueue, fun t => ?_⟩
        rw [hasleep, List.mem_cons, not_or]
        by_cases ht : t = thread
        · subst ht
          simp
        · rw [update_of_ne ht]
          tauto
      · rw [if_neg hlt, Nat.sub_eq_zero_of_le (Nat.le_of_not_lt hlt)]
        simp

theorem WF.wake (h : WF s) (n : UInt32) : WF (wake s n).2 := by
  obtain ⟨hqueue, hasleep⟩ := wakeupLoop_spec n.toNat s.sleeping 0 s.asleep
  rw [Nat.sub_zero] at hqueue hasleep
  refine ⟨?_, fun t => ?_, fun t ht => ?_⟩
  · show (wakeupLoop n.toNat s.sleeping 0 s.asleep).1.Nodup
    rw [hqueue]
    exact h.nodup.sublist (List.drop_sublist _ _)
  · show (wakeupLoop n.toNat s.sleeping 0 s.asleep).2.2 t = true
      ↔ t ∈ (wakeupLoop n.toNat s.sleeping 0 s.asleep).1
    rw [hasleep, hqueue, h.asleep_iff]
    -- a thread is queued once, among those that go or among those that stay
    have hsplit := List.take_append_drop n.toNat s.sleeping
    have hnodup := h.nodup
    rw [← hsplit] at hnodup
    have hdisjoint := (List.nodup_append.mp hnodup).2.2
    constructor
    · intro ⟨hmem, hnot⟩
      rw [← hsplit, List.mem_append] at hmem
      exact hmem.resolve_left hnot
    · intro hmem
      exact ⟨List.mem_of_mem_drop hmem, fun htake => hdisjoint t htake t hmem rfl⟩
  · refine h.parked t ?_
    have hmem : t ∈ (wakeupLoop n.toNat s.sleeping 0 s.asleep).1 := ht
    rw [hqueue] at hmem
    exact List.mem_of_mem_drop hmem

/-- **Every step keeps the invariant.** -/
theorem WF.step (h : WF s) (hst : Step s e s') : WF s' := by
  unfold Step exec at hst
  cases e with
  | wait thread value =>
      simp only at hst
      split at hst
      · cases hst
      · rename_i hout
        split at hst
        · obtain rfl := Option.some.inj hst
          refine ⟨h.nodup, h.asleep_iff, fun t ht => ?_⟩
          have hne : t ≠ thread := fun heq => hout (by rw [← heq, h.parked t ht]; decide)
          exact (update_of_ne hne _ _).trans (h.parked t ht)
        · obtain rfl := Option.some.inj hst
          exact h
  | sleep thread =>
      simp only at hst
      split at hst
      · cases hst
      · rename_i hchecked
        obtain rfl := Option.some.inj hst
        have hnot : thread ∉ s.sleeping := fun hmem =>
          hchecked (by rw [h.parked thread hmem]; decide)
        refine ⟨?_, fun t => ?_, fun t ht => ?_⟩
        · exact List.nodup_append.mpr ⟨h.nodup, List.nodup_singleton _, fun a ha b hb heq =>
            hnot (List.mem_singleton.mp hb ▸ heq ▸ ha)⟩
        · show update s.asleep thread true t = true ↔ t ∈ s.sleeping ++ [thread]
          rw [List.mem_append, List.mem_singleton]
          by_cases ht : t = thread
          · simp [ht]
          · rw [update_of_ne ht, h.asleep_iff, or_iff_left ht]
        · show update s.phase thread .parked t = .parked
          by_cases heq : t = thread
          · rw [heq, update_self]
          · rw [update_of_ne heq]
            have ht' : t ∈ s.sleeping ++ [thread] := ht
            rw [List.mem_append, List.mem_singleton, or_iff_left heq] at ht'
            exact h.parked t ht'
  | ret thread =>
      simp only at hst
      split at hst
      · rename_i hparked
        obtain rfl := Option.some.inj hst
        refine ⟨h.nodup, h.asleep_iff, fun t ht => ?_⟩
        have hne : t ≠ thread := fun heq => by
          have hasleep := (h.asleep_iff t).mpr ht
          rw [heq, hparked.2] at hasleep
          cases hasleep
        exact (update_of_ne hne _ _).trans (h.parked t ht)
      · cases hst
  | wake n =>
      obtain rfl := Option.some.inj hst
      exact h.wake n
  | store value =>
      obtain rfl := Option.some.inj hst
      exact ⟨h.nodup, h.asleep_iff, h.parked⟩

theorem wf_run {word : UInt32} {hist : List (Event T)} (hrun : Run Step (initial word) hist s) :
    WF s :=
  hrun.invariant WF (wf_initial word) fun _ _ _ h hst => h.step hst

/-! ## §3. Wakes that are not lost. -/

/-- **A wake of as many threads as are inside `wait`** empties the queue. -/
theorem WF.wake_all [Fintype T] (h : WF s) (hn : (inside s).card ≤ n.toNat) :
    (Futexes.wake s n).2.sleeping = [] ∧ ∀ t, (Futexes.wake s n).2.asleep t = false := by
  have hlength : s.sleeping.length ≤ n.toNat := by
    rw [← List.toFinset_card_of_nodup h.nodup]
    refine le_trans (Finset.card_le_card fun t ht => ?_) hn
    have hparked := h.parked t (List.mem_toFinset.mp ht)
    unfold inside
    simp [hparked]
  obtain ⟨hqueue, -⟩ := wakeupLoop_spec n.toNat s.sleeping 0 s.asleep
  have hempty : (Futexes.wake s n).2.sleeping = [] :=
    hqueue.trans (List.drop_eq_nil_of_le (by omega))
  refine ⟨hempty, fun t => ?_⟩
  have hasleep := (h.wake n).asleep_iff t
  rw [hempty] at hasleep
  rw [← Bool.not_eq_true, hasleep]
  exact List.not_mem_nil

/-- The thread has been through `sleep` and is awake. -/
structure Awake (s : State T) (t : T) : Prop where
  phase : s.phase t ≠ .checked
  asleep : s.asleep t = false
  queue : t ∉ s.sleeping

/-- Until it waits again, a thread that is awake stays so. -/
theorem Awake.step (h : Awake s t) (hst : Step s e s') (hnew : ∀ value, e ≠ .wait t value) :
    Awake s' t := by
  unfold Step exec at hst
  cases e with
  | wait thread value =>
      have hne : t ≠ thread := fun heq => hnew value (by rw [heq])
      simp only at hst
      split at hst
      · cases hst
      · split at hst
        · obtain rfl := Option.some.inj hst
          refine ⟨?_, h.asleep, h.queue⟩
          show update s.phase thread .checked t ≠ .checked
          rw [update_of_ne hne]
          exact h.phase
        · obtain rfl := Option.some.inj hst
          exact h
  | sleep thread =>
      simp only at hst
      split at hst
      · cases hst
      · rename_i hchecked
        obtain rfl := Option.some.inj hst
        have hne : t ≠ thread := fun heq => h.phase (by
          rw [heq]
          exact not_not.mp hchecked)
        refine ⟨?_, (update_of_ne hne _ _).trans h.asleep, ?_⟩
        · show update s.phase thread .parked t ≠ .checked
          rw [update_of_ne hne]
          exact h.phase
        · show t ∉ s.sleeping ++ [thread]
          rw [List.mem_append, List.mem_singleton, not_or]
          exact ⟨h.queue, hne⟩
  | ret thread =>
      simp only at hst
      split at hst
      · obtain rfl := Option.some.inj hst
        refine ⟨?_, h.asleep, h.queue⟩
        show update s.phase thread .outside t ≠ .checked
        by_cases heq : t = thread
        · rw [heq, update_self]
          decide
        · rw [update_of_ne heq]
          exact h.phase
      · cases hst
  | wake n =>
      obtain rfl := Option.some.inj hst
      obtain ⟨hqueue, hasleep⟩ := wakeupLoop_spec n.toNat s.sleeping 0 s.asleep
      refine ⟨h.phase, ?_, fun hmem => h.queue ?_⟩
      · have hiff := hasleep t
        rw [h.asleep] at hiff
        exact Bool.eq_false_iff.mpr fun htrue => Bool.false_ne_true (hiff.mp htrue).1
      · have hmem' : t ∈ (wakeupLoop n.toNat s.sleeping 0 s.asleep).1 := hmem
        rw [hqueue] at hmem'
        exact List.mem_of_mem_drop hmem'
  | store value =>
      obtain rfl := Option.some.inj hst
      exact ⟨h.phase, h.asleep, h.queue⟩

/-- The thread starts no other `wait` in these steps. -/
def NoNewWait (t : T) (hist : List (Event T)) : Prop := ∀ e ∈ hist, ∀ value, e ≠ .wait t value

theorem Awake.run {hist : List (Event T)} (h : Awake s t) (hrun : Run Step s hist s')
    (hnew : NoNewWait t hist) : Awake s' t := by
  induction hrun with
  | init => exact h
  | step hprev hst ih =>
      exact (ih fun e he => hnew e (List.mem_cons_of_mem _ he)).step hst
        (hnew _ List.mem_cons_self)

/-- **The wake is not lost on `t`**: whenever the steps of its `wait` have been executed, it
neither sleeps nor is queued, until it waits again. -/
def NotLost (s : State T) (n : UInt32) (t : T) : Prop :=
  ∀ (more : List (Event T)) (s' : State T), Run Step (wake s n).2 more s' → NoNewWait t more →
    s'.phase t ≠ .checked → s'.asleep t = false ∧ t ∉ s'.sleeping

/-- **A WAKE IS NOT LOST EXACTLY ON THE THREADS THAT ARE ENQUEUED**: in every run, for a
`wake` of at least as many threads as are inside `wait`, and any of these threads. -/
theorem futex_wake_iff [Fintype T] {word : UInt32} {hist : List (Event T)}
    (hrun : Run Step (initial word) hist s) (hn : (inside s).card ≤ n.toNat)
    (ht : s.phase t ≠ .outside) : NotLost s n t ↔ s.phase t = .parked := by
  have hwf := wf_run hrun
  obtain ⟨hempty, hasleep⟩ := hwf.wake_all hn
  constructor
  · intro h
    cases hphase : s.phase t with
    | outside => exact absurd hphase ht
    | parked => rfl
    | checked =>
        -- it goes to sleep right behind the wake
        exfalso
        have hchecked : ¬ (wake s n).2.phase t ≠ .checked := not_not.mpr hphase
        have hlost := h [.sleep t] _ (Run.init.step (if_neg hchecked))
          (fun e he value => by rw [List.mem_singleton.mp he]; simp)
        have hafter := hlost (by simp)
        simp at hafter
  · intro hparked more s' hmore hnew _
    have hawake : Awake (wake s n).2 t := by
      refine ⟨?_, hasleep t, ?_⟩
      · show s.phase t ≠ .checked
        rw [hparked]
        decide
      · rw [hempty]
        exact List.not_mem_nil
    have hend := hawake.run hmore hnew
    exact ⟨hend.asleep, hend.queue⟩

/-- Thread 0 has been enqueued when the wake comes, thread 1 has not. -/
def meanwhile : State (Fin 2) where
  word := 7
  sleeping := [0]
  asleep := fun t => t = 0
  phase := fun t => if t = 0 then .parked else .checked

theorem meanwhile_run :
    Run Step (initial 5) [.wait 1 6, .sleep 0, .wait 0 5] meanwhile := by
  refine ((Run.init.step rfl).step rfl).step ?_
  have hphase : update (update (update
      (fun _ : Fin 2 => Phase.outside) 0 .checked) 0 .parked) 1 .checked = meanwhile.phase :=
    funext (by decide)
  have hasleep : update (fun _ : Fin 2 => false) 0 true = meanwhile.asleep :=
    funext (by decide)
  exact congrArg some (congrArg₂ (State.mk 7 [0]) hasleep hphase)

/-- A wake of both reaches the one and is lost on the other. -/
theorem futex_wake_iff_meanwhile : NotLost meanwhile 2 0 ∧ ¬ NotLost meanwhile 2 1 :=
  ⟨(futex_wake_iff meanwhile_run (by decide) (by decide)).mpr rfl,
    fun h => absurd ((futex_wake_iff meanwhile_run (by decide) (by decide)).mp h) (by decide)⟩

/-- **A wake between the compare-exchange and the enqueueing is lost.** -/
theorem wake_before_sleep_lost :
    ¬ ∀ (word : UInt32) (hist : List (Event (Fin 2))) (s : State (Fin 2)) (n : UInt32) (t : Fin 2),
      Run Step (initial word) hist s → (inside s).card ≤ n.toNat → s.phase t ≠ .outside →
        NotLost s n t := by
  intro h
  have hlost := h 5 _ meanwhile 2 1 meanwhile_run (by decide) (by decide) [.sleep 1] _
    (Run.init.step rfl) (fun e he value => by rw [List.mem_singleton.mp he]; simp)
    (by decide)
  exact absurd hlost.1 (by decide)

end MierOS.Tasking.Futexes
