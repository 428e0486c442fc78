/-
  MierOS.Tasking.SleepQueue
  **WAKING UP SLEEPERS**: `SleepQueue::wakeup` of `sleep_queue.cpp` over `std::Queue`, and
  `Futex::wake`, which hands its result on.

  The loop counts in its own condition: `woke++ < count` adds one for every thread that is
  taken, and one more for the test that ends the loop.

  Main results: `wakeup_spec`, `wakeup_off_by_one`.
-/
import MierOS.Lib.Loop
import MierOS.Stdlib.Queue
import Mathlib.Algebra.Group.Nat.Defs

namespace MierOS.Tasking.SleepQueue

open Lib Stdlib

/-! ## §1. The code. -/

/-- `pid_t`. -/
abbrev Pid := UInt32

/-- The address of a `Thread`; `0` is null. -/
abbrev ThreadPtr := Nat

/-- The variables of `wakeup`: the counter, `f_sleeping`, and the threads whose `wakeup()`
has been called. -/
structure Waking where
  woke : UInt64
  sleeping : Queue Pid
  woken : List ThreadPtr

/-- One round of `wakeup(count)`, where `get` is `Thread::get`; a `none` is an access through
a null pointer. -/
def wakeupRound (get : Pid → ThreadPtr) (count : UInt64) (s : Waking) : Waking ⊕ Option Waking :=
  let more := s.woke < count
  let s := { s with woke := s.woke + 1 }
  if more ∧ s.sleeping.size > 0 then
    match s.sleeping.popFront with
    | none => .inr none
    | some (tid, sleeping) =>
        let thread := get tid
        .inl { s with
          sleeping := sleeping
          woken := if thread ≠ 0 then s.woken ++ [thread] else s.woken }
  else .inr (some s)

/-- `wakeup(count)` returns, with these values of its variables. -/
def Wakeup (get : Pid → ThreadPtr) (count : UInt64) (sleeping : Queue Pid) (r : Waking) : Prop :=
  Loop.Returns (wakeupRound get count) ⟨0, sleeping, []⟩ (some r)

/-- `Futex::wake(value)` returns, with `answer`. -/
def FutexWake (get : Pid → ThreadPtr) (value : UInt32) (sleeping : Queue Pid) (answer : UInt32) :
    Prop :=
  ∃ r, Wakeup get value.toUInt64 sleeping r ∧ answer = r.woke.toUInt32

/-! ## §2. What `wakeup` does. -/

/-- The threads of those ids that still have one. -/
def existing (get : Pid → ThreadPtr) (tids : List Pid) : List ThreadPtr :=
  (tids.map get).filter (· ≠ 0)

/-- **The first `k` sleepers are taken**, and the threads among them woken up. -/
structure Takes (get : Pid → ThreadPtr) (k : Nat) (tids : List Pid) (r : Waking) : Prop where
  rest : ∃ entries, r.sleeping.Holds entries (tids.drop k)
  woken : r.woken = existing get (tids.take k)

/-- **What `wakeup` is for**: it takes as many sleepers as are asked for, or all, and returns
how many. -/
structure Exact (get : Pid → ThreadPtr) (count : UInt64) (tids : List Pid) (r : Waking) : Prop where
  takes : Takes get (min count.toNat tids.length) tids r
  result : r.woke.toNat = min count.toNat tids.length

section Loop

variable {get : Pid → ThreadPtr} {count : UInt64} {sleeping : Queue Pid} {entries : List Nat}
  {tids : List Pid}

theorem existing_cons (get : Pid → ThreadPtr) (tid : Pid) (tids : List Pid) (woken : List ThreadPtr) :
    (if get tid ≠ 0 then woken ++ [get tid] else woken) ++ existing get tids
      = woken ++ existing get (tid :: tids) := by
  unfold existing
  by_cases hget : get tid ≠ 0
  · rw [if_pos hget, List.map_cons, List.filter_cons_of_pos (by simpa using hget),
      List.append_assoc, List.singleton_append]
  · rw [if_neg hget, List.map_cons, List.filter_cons_of_neg (by simpa using hget)]

theorem wakeupRound_end {s : Waking} (h : ¬ (s.woke < count ∧ s.sleeping.size > 0)) :
    wakeupRound get count s = .inr (some { s with woke := s.woke + 1 }) := if_neg h

/-- **One round**: a sleeper is taken. -/
theorem wakeupRound_cons (get : Pid → ThreadPtr) {tid : Pid} {s : Waking} (hlt : s.woke < count)
    (h : s.sleeping.Holds entries (tid :: tids)) :
    ∃ sleeping', sleeping'.Holds entries.tail tids
      ∧ wakeupRound get count s
        = .inl ⟨s.woke + 1, sleeping', if get tid ≠ 0 then s.woken ++ [get tid] else s.woken⟩ := by
  obtain ⟨sleeping', hpop, hholds⟩ := h.pop
  have hsize : s.sleeping.size > 0 := by
    rw [h.size_values]
    exact Nat.succ_pos _
  refine ⟨sleeping', hholds, ?_⟩
  unfold wakeupRound
  dsimp only
  rw [if_pos ⟨hlt, hsize⟩, hpop]

/-- Adding one below a bound does not wrap. -/
theorem toNat_add_one {woke count : UInt64} (h : woke < count) :
    (woke + 1).toNat = woke.toNat + 1 := by
  have hlt : woke.toNat < count.toNat := UInt64.lt_iff_toNat_lt.mp h
  have hcount := count.toNat_lt
  rw [UInt64.toNat_add, UInt64.toNat_one]
  exact Nat.mod_eq_of_lt (by omega)

/-- **The loop**, from any value of its counter: as many sleepers as it still has to count
go, and the counter is one past them. -/
theorem wakeup_loop (get : Pid → ThreadPtr) (count : UInt64) (tids : List Pid) :
    ∀ {entries : List Nat} {s : Waking}, s.sleeping.Holds entries tids →
      ∃ r, Loop.Returns (wakeupRound get count) s (some r)
        ∧ (∃ entries', r.sleeping.Holds entries' (tids.drop (count.toNat - s.woke.toNat)))
        ∧ r.woken = s.woken ++ existing get (tids.take (count.toNat - s.woke.toNat))
        ∧ r.woke = s.woke + UInt64.ofNat (min (count.toNat - s.woke.toNat) tids.length) + 1 := by
  induction tids with
  | nil =>
      intro entries s h
      -- nobody is left
      have hend : ¬ (s.woke < count ∧ s.sleeping.size > 0) := fun hand => by
        rw [h.size_values] at hand
        exact Nat.lt_irrefl 0 hand.2
      refine ⟨_, Loop.Returns.inr (wakeupRound_end hend), ⟨entries, ?_⟩, ?_, ?_⟩
      · rw [List.drop_nil]
        exact h
      · simp [existing]
      · simp
  | cons tid tids ih =>
      intro entries s h
      by_cases hlt : s.woke < count
      · obtain ⟨sleeping', hholds, hround⟩ := wakeupRound_cons get hlt h
        obtain ⟨r, hreturns, hrest, hwoken, hwoke⟩ := ih (s := ⟨s.woke + 1, sleeping', _⟩) hholds
        have hone := toNat_add_one hlt
        have hltNat := UInt64.lt_iff_toNat_lt.mp hlt
        obtain ⟨k, hk⟩ : ∃ k, count.toNat - s.woke.toNat = k + 1 :=
          ⟨count.toNat - s.woke.toNat - 1, by omega⟩
        have hk' : count.toNat - (s.woke + 1).toNat = k := by omega
        dsimp only at hrest hwoken hwoke
        rw [hk'] at hrest hwoken hwoke
        refine ⟨r, hreturns.inl hround, ?_, ?_, ?_⟩
        · rw [hk, List.drop_succ_cons]
          exact hrest
        · rw [hk, List.take_succ_cons, hwoken, existing_cons]
        · rw [hwoke, hk, List.length_cons, Nat.succ_min_succ,
            show (min k tids.length).succ = min k tids.length + 1 from rfl, UInt64.ofNat_add]
          show s.woke + 1 + _ + 1 = s.woke + (_ + 1) + 1
          ac_rfl
      · -- as many as were asked for
        have hdone : count.toNat - s.woke.toNat = 0 :=
          Nat.sub_eq_zero_of_le (Nat.le_of_not_lt fun hltNat => hlt (UInt64.lt_iff_toNat_lt.mpr hltNat))
        refine ⟨_, Loop.Returns.inr (wakeupRound_end fun hand => hlt hand.1), ⟨entries, ?_⟩, ?_, ?_⟩
        · rw [hdone, List.drop_zero]
          exact h
        · rw [hdone]
          simp [existing]
        · rw [hdone]
          simp

/-- **What `wakeup` does**: it takes the first sleepers, wakes up those that still exist, and
returns one more than it took. -/
theorem wakeup_spec (get : Pid → ThreadPtr) (count : UInt64) (h : sleeping.Holds entries tids) :
    ∃ r, Wakeup get count sleeping r ∧ Takes get (min count.toNat tids.length) tids r
      ∧ r.woke = UInt64.ofNat (min count.toNat tids.length) + 1 := by
  obtain ⟨r, hreturns, hrest, hwoken, hwoke⟩ := wakeup_loop get count tids (s := ⟨0, sleeping, []⟩) h
  have hmin : ∀ l : List Pid, l.drop (min count.toNat l.length) = l.drop count.toNat
      ∧ l.take (min count.toNat l.length) = l.take count.toNat := fun l => by
    rcases Nat.le_total count.toNat l.length with hle | hle
    · rw [Nat.min_eq_left hle]
      exact ⟨rfl, rfl⟩
    · rw [Nat.min_eq_right hle, List.drop_length, List.take_length, List.drop_eq_nil_of_le hle,
        List.take_of_length_le hle]
      exact ⟨rfl, rfl⟩
  refine ⟨r, hreturns, ⟨?_, ?_⟩, ?_⟩
  · rw [(hmin tids).1]
    exact hrest
  · rw [(hmin tids).2]
    exact hwoken
  · simpa using hwoke

/-! ## §3. What it returns. -/

/-- The counter of every call is one more than the number of sleepers taken. -/
theorem Wakeup.woke_eq {r : Waking} (hr : Wakeup get count sleeping r)
    (h : sleeping.Holds entries tids) :
    r.woke.toNat = (min count.toNat tids.length + 1) % 2 ^ 64 := by
  obtain ⟨r', hreturns, -, hwoke⟩ := wakeup_spec get count h
  obtain rfl : r = r' := Option.some.inj (hr.unique hreturns)
  have hcount := count.toNat_lt
  have hsmall : min count.toNat tids.length < UInt64.size :=
    Nat.lt_of_le_of_lt (Nat.min_le_left _ _) hcount
  rw [hwoke, UInt64.toNat_add, UInt64.toNat_one, UInt64.toNat_ofNat_of_lt' hsmall]

/-- So it is not that number, not even when it wraps. -/
theorem Wakeup.not_exact {r : Waking} (hr : Wakeup get count sleeping r)
    (h : sleeping.Holds entries tids) : ¬ Exact get count tids r := by
  intro hexact
  have hwoke := hr.woke_eq h
  have hresult := hexact.result
  have hcount := count.toNat_lt
  omega

/-- **THE RESULT IS ONE TOO MANY.**  For every queue of sleepers, whichever of them still
exist, and for every count: `wakeup` takes the first sleepers, as many as are asked for or
all, and wakes up exactly the threads among them that exist; what it returns is not the
number of those taken, in no case at all, and `Futex::wake` does not report it either. -/
theorem wakeup_off_by_one (get : Pid → ThreadPtr) (h : sleeping.Holds entries tids) :
    (∀ count, (∃ r, Wakeup get count sleeping r ∧ Takes get (min count.toNat tids.length) tids r)
        ∧ ¬ ∃ r, Wakeup get count sleeping r ∧ Exact get count tids r)
      ∧ ∀ value answer, FutexWake get value sleeping answer →
          answer.toNat ≠ min value.toNat tids.length := by
  refine ⟨fun count => ⟨?_, fun ⟨r, hr, hexact⟩ => hr.not_exact h hexact⟩, ?_⟩
  · obtain ⟨r, hreturns, htakes, -⟩ := wakeup_spec get count h
    exact ⟨r, hreturns, htakes⟩
  · rintro value answer ⟨r, hr, rfl⟩ heq
    have hwoke := hr.woke_eq h
    have hvalue := value.toNat_lt
    rw [UInt32.toNat_toUInt64] at hwoke
    rw [UInt64.toNat_toUInt32, hwoke] at heq
    omega

end Loop

/-- One sleeper, the thread 7. -/
def oneSleeper : Queue Pid := (Queue.new (fun _ => 0) fun _ => 0).pushBack 7 1

theorem holds_oneSleeper : oneSleeper.Holds [1] [7] :=
  (Queue.holds_new (fun _ => (0 : Pid)) fun _ => 0).push (by decide) (by simp)

/-- One sleeper, and a wakeup of all. -/
theorem wakeup_one_sleeper :
    (∀ count : UInt64, (∃ r, Wakeup (fun _ => 5) count oneSleeper r
          ∧ Takes (fun _ => 5) (min count.toNat 1) [7] r)
        ∧ ¬ ∃ r, Wakeup (fun _ => 5) count oneSleeper r ∧ Exact (fun _ => 5) count [7] r)
      ∧ ∀ value answer, FutexWake (fun _ => 5) value oneSleeper answer →
          answer.toNat ≠ min value.toNat 1 :=
  wakeup_off_by_one (fun _ => 5) holds_oneSleeper

/-- **One sleeper, and a wakeup of one**: it is taken and woken up, and the result is 2. -/
theorem wakeup_counts_two :
    ¬ ∀ (get : Pid → ThreadPtr) (count : UInt64) (sleeping : Queue Pid) (entries : List Nat)
        (tids : List Pid), sleeping.Holds entries tids →
        ∃ r, Wakeup get count sleeping r ∧ Exact get count tids r := by
  intro hclaim
  obtain ⟨r, hr, hexact⟩ := hclaim (fun _ => 5) 1 oneSleeper [1] [7] holds_oneSleeper
  exact hr.not_exact holds_oneSleeper hexact

end MierOS.Tasking.SleepQueue
