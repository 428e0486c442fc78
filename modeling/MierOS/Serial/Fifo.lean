/-
  MierOS.Serial.Fifo
  **THE BYTE QUEUE OF THE SERIAL DRIVER**: `FIFO` of `fifo.hpp`, a ring with
  two heads and one slot kept free.

  `read` compares the heads as it should.  `write` compares `f_write_head + 1`
  with the read head BEFORE it is reduced, so a ring that is full with the
  write head on its last slot is not seen to be full: the byte is stored over
  the free slot, the write head wraps onto the read head, and the whole ring
  reads as empty.

  Main results: `FIFO.write_eq`, `FIFO.read_eq`, `fifo_correct_iff`.
-/
import MierOS.Lib.Ring
import MierOS.Lib.Run
import Mathlib.Algebra.Group.Nat.Defs

namespace MierOS.Serial

open Lib

/-! ## §1. The queue and its two operations. -/

/-- `FIFO`. -/
structure FIFO where
  capacity : Nat
  storage : Nat → UInt8
  readHead : Nat
  writeHead : Nat

namespace FIFO

/-- `FIFO::FIFO`; the storage is not initialised. -/
def create (capacity : Nat) (uninitialised : Nat → UInt8) : FIFO where
  capacity := capacity
  storage := uninitialised
  readHead := 0
  writeHead := 0

/-- The test of `write`, on `size_t`. -/
def full (f : FIFO) : Prop := (f.writeHead + 1) % 2 ^ 64 = f.readHead

instance (f : FIFO) : Decidable f.full := inferInstanceAs (Decidable (_ = _))

/-- `FIFO::write`; `none` is a call that goes round `while` for as long as
nobody else moves the read head. -/
def write (f : FIFO) (value : UInt8) (block : Bool) : Option (Bool × FIFO) :=
  if f.full then
    if block then none else some (false, f)
  else
    some (true, { f with
      storage := Function.update f.storage f.writeHead value
      writeHead := (f.writeHead + 1) % f.capacity })

/-- `FIFO::read`: what it returned, with the byte stored in `*out` when it did. -/
def read (f : FIFO) (block : Bool) : Option (Option UInt8 × FIFO) :=
  if f.readHead = f.writeHead then
    if block then none else some (none, f)
  else
    some (some (f.storage f.readHead), { f with readHead := (f.readHead + 1) % f.capacity })

/-- A non-blocking call. -/
inductive Call where
  | write (value : UInt8)
  | read
  deriving Repr, DecidableEq

/-- What a call did, as its caller sees it. -/
inductive Event where
  | wrote (value : UInt8) (ok : Bool)
  | read (out : Option UInt8)
  deriving Repr, DecidableEq

/-- One non-blocking call. -/
def call (f : FIFO) : Call → Event × FIFO
  | .write value =>
      match f.write value false with
      | some (ok, f') => (.wrote value ok, f')
      | none => (.wrote value false, f)
  | .read =>
      match f.read false with
      | some (out, f') => (.read out, f')
      | none => (.read none, f)

/-- The queue a driver starts with, and what it answers to a sequence of calls. -/
def answers (capacity : Nat) (uninitialised : Nat → UInt8) (calls : List Call) : List Event :=
  Lib.answers call (create capacity uninitialised) calls

/-- The queue after a sequence of calls. -/
def after (capacity : Nat) (uninitialised : Nat → UInt8) (calls : List Call) : FIFO :=
  stateAfter call (create capacity uninitialised) calls

/-! ## §2. What the answers of a bounded queue are. -/

/-- The bytes of the successful writes. -/
def accepted (es : List Event) : List UInt8 :=
  es.filterMap fun
    | .wrote value true => some value
    | _ => none

/-- The bytes of the successful reads. -/
def delivered (es : List Event) : List UInt8 :=
  es.filterMap fun
    | .read out => out
    | _ => none

/-- How many accepted bytes no read has returned. -/
def unread (es : List Event) : Nat := (accepted es).length - (delivered es).length

/-- How a call may be answered after `es`: a refused write finds `c - 1` unread
bytes and a refused read none, and what is read continues the accepted bytes. -/
def Meets (c : Nat) (es : List Event) : Event → Prop
  | .wrote _ ok => ok = false ↔ unread es = c - 1
  | .read out => (out = none ↔ unread es = 0) ∧ delivered es ++ out.toList <+: accepted es

/-- **The answers of a queue of `c - 1` bytes.** -/
def Correct (c : Nat) (es : List Event) : Prop := AtEach (Meets c) es

/-! ## §3. The ring under the queue. -/

/-- The heads are slots of the ring, and what was accepted is what was
delivered, then what is in the ring. -/
structure Holds (c : Nat) (f : FIFO) (es : List Event) : Prop where
  capacity : f.capacity = c
  readHead : f.readHead < c
  writeHead : f.writeHead < c
  bytes : accepted es = delivered es ++ Ring.contents c f.storage f.readHead f.writeHead

/-- The one place where the ring is full and `write` does not see it. -/
def AtWrap (f : FIFO) : Prop := f.writeHead = f.capacity - 1 ∧ f.readHead = 0

variable {c : Nat} {f : FIFO} {es : List Event}

theorem Holds.unread (h : Holds c f es) :
    FIFO.unread es = Ring.count c f.readHead f.writeHead := by
  unfold FIFO.unread
  rw [h.bytes, List.length_append, Nat.add_sub_cancel_left]
  simp [Ring.contents]

theorem Holds.full_iff (h : Holds c f es) (hword : c < 2 ^ 64) :
    f.full ↔ f.writeHead + 1 = f.readHead := by
  have hw := h.writeHead
  unfold full
  rw [Nat.mod_eq_of_lt (by omega)]

/-- All but one slot in use, in terms of the heads. -/
theorem count_eq_pred_iff {r w : Nat} (hr : r < c) (hw : w < c) :
    Ring.count c r w = c - 1 ↔ w + 1 = r ∨ (w = c - 1 ∧ r = 0) := by
  unfold Ring.count
  split <;> omega

theorem count_eq_zero_iff {r w : Nat} (hr : r < c) :
    Ring.count c r w = 0 ↔ r = w := by
  unfold Ring.count
  split <;> omega

/-- A non-blocking `write`. -/
theorem write_eq (f : FIFO) (value : UInt8) :
    f.call (.write value) =
      if f.full then (.wrote value false, f)
      else (.wrote value true, { f with
        storage := Function.update f.storage f.writeHead value
        writeHead := (f.writeHead + 1) % f.capacity }) := by
  by_cases hfull : f.full <;> simp [call, write, hfull]

/-- A non-blocking `read`. -/
theorem read_eq (f : FIFO) :
    f.call .read =
      if f.readHead = f.writeHead then (.read none, f)
      else (.read (some (f.storage f.readHead)),
        { f with readHead := (f.readHead + 1) % f.capacity }) := by
  by_cases heq : f.readHead = f.writeHead <;> simp [call, read, heq]

theorem accepted_concat (es : List Event) (e : Event) :
    accepted (es ++ [e]) = accepted es ++ accepted [e] := List.filterMap_append

theorem delivered_concat (es : List Event) (e : Event) :
    delivered (es ++ [e]) = delivered es ++ delivered [e] := List.filterMap_append

/-- A read keeps the ring and answers as a queue does. -/
theorem Holds.read (h : Holds c f es) :
    Meets c es (f.call .read).1 ∧ Holds c (f.call .read).2 (es ++ [(f.call .read).1]) := by
  have hzero := count_eq_zero_iff h.readHead (w := f.writeHead)
  rw [← h.unread] at hzero
  rw [read_eq]
  by_cases heq : f.readHead = f.writeHead
  · rw [if_pos heq]
    refine ⟨⟨by simp [hzero, heq], ?_⟩, h.capacity, h.readHead, h.writeHead, ?_⟩
    · rw [Option.toList_none, List.append_nil, h.bytes]
      exact List.prefix_append _ _
    · rw [accepted_concat, delivered_concat]
      simpa [accepted, delivered] using h.bytes
  · rw [if_neg heq]
    have hpop := Ring.contents_pop h.readHead h.writeHead heq f.storage
    refine ⟨⟨by simp [hzero, heq], ?_⟩, h.capacity, ?_, h.writeHead, ?_⟩
    · rw [Option.toList_some, h.bytes, hpop]
      exact ⟨_, List.append_assoc _ _ _⟩
    · show (f.readHead + 1) % f.capacity < c
      rw [h.capacity]
      exact Ring.next_lt h.readHead
    · show _ = _ ++ Ring.contents c f.storage ((f.readHead + 1) % f.capacity) f.writeHead
      rw [accepted_concat, delivered_concat, h.bytes, hpop, h.capacity]
      simp [accepted, delivered, Ring.next]

/-- A write that does not meet the ring at its wrap does too. -/
theorem Holds.write (h : Holds c f es) (hword : c < 2 ^ 64) (hwrap : ¬ f.AtWrap) (value : UInt8) :
    Meets c es (f.call (.write value)).1 ∧
      Holds c (f.call (.write value)).2 (es ++ [(f.call (.write value)).1]) := by
  have hpred := count_eq_pred_iff h.readHead h.writeHead
  rw [← h.unread] at hpred
  have hfull := h.full_iff hword
  have hnot : ¬ (f.writeHead = c - 1 ∧ f.readHead = 0) := by
    rw [← h.capacity]
    exact hwrap
  rw [write_eq]
  by_cases heq : f.writeHead + 1 = f.readHead
  · rw [if_pos (hfull.mpr heq)]
    refine ⟨by simp [Meets, hpred, heq], h.capacity, h.readHead, h.writeHead, ?_⟩
    rw [accepted_concat, delivered_concat]
    simpa [accepted, delivered] using h.bytes
  · rw [if_neg (fun hf => heq (hfull.mp hf))]
    have hr := h.readHead
    have hw := h.writeHead
    have hnext : Ring.next c f.writeHead ≠ f.readHead := by
      rw [Ring.next_eq hw]
      split <;> omega
    refine ⟨by simp only [Meets, hpred]; simp; omega, h.capacity, h.readHead, ?_, ?_⟩
    · show (f.writeHead + 1) % f.capacity < c
      rw [h.capacity]
      exact Ring.next_lt hw
    · show _ = _ ++ Ring.contents c (Function.update f.storage f.writeHead value) f.readHead
        ((f.writeHead + 1) % f.capacity)
      have hpush := Ring.contents_push hr hw hnext f.storage value
      unfold Ring.next at hpush
      rw [accepted_concat, delivered_concat, h.bytes, h.capacity, hpush]
      simp [accepted, delivered]

/-- At the wrap `write` accepts a byte that a full queue refuses. -/
theorem Holds.write_atWrap (h : Holds c f es) (hword : c < 2 ^ 64) (hwrap : f.AtWrap)
    (value : UInt8) : ¬ Meets c es (f.call (.write value)).1 := by
  have hw : f.writeHead = c - 1 := by rw [hwrap.1, h.capacity]
  have hnotfull : ¬ f.full := by
    rw [h.full_iff hword, hwrap.2]
    omega
  have hcount : FIFO.unread es = c - 1 := by
    rw [h.unread]
    exact (count_eq_pred_iff h.readHead h.writeHead).mpr (Or.inr ⟨hw, hwrap.2⟩)
  rw [write_eq, if_neg hnotfull]
  simp [Meets, hcount]

/-! ## §4. Sequences of calls. -/

/-- The call that goes wrong: a write on a ring that is full with its write head
on the last slot. -/
def Call.Sound (f : FIFO) : Call → Prop
  | .write _ => ¬ f.AtWrap
  | .read => True

/-- No write of the sequence meets the ring at its wrap. -/
def NeverAtWrap (c : Nat) (storage : Nat → UInt8) (calls : List Call) : Prop :=
  ∀ before value later, calls = before ++ .write value :: later → ¬ (after c storage before).AtWrap

theorem neverAtWrap_iff (storage : Nat → UInt8) (calls : List Call) :
    NeverAtWrap c storage calls ↔
      AtEach (fun before d => d.Sound (stateAfter call (create c storage) before)) calls := by
  constructor
  · intro h before d later heq
    cases d with
    | write value => exact h before value later heq
    | read => exact True.intro
  · intro h before value later heq
    exact h before (.write value) later heq

theorem holds_create (hc : 0 < c) (storage : Nat → UInt8) : Holds c (create c storage) [] where
  capacity := rfl
  readHead := hc
  writeHead := hc
  bytes := by simp [accepted, delivered, Ring.contents, Ring.count, create]

/-- **The queue is the one its callers expect** exactly when no write meets the
ring at its wrap. -/
theorem fifo_correct_iff (c : Nat) (hc : 2 ≤ c) (hword : c < 2 ^ 64) (storage : Nat → UInt8)
    (calls : List Call) :
    Correct c (answers c storage calls) ↔ NeverAtWrap c storage calls := by
  rw [neverAtWrap_iff]
  refine atEach_answers_iff (I := fun es f => Holds c f es) (holds_create (by omega) storage)
    ?_ ?_ calls
  · intro es f d h hsound
    cases d with
    | write value => exact h.write hword hsound value
    | read => exact h.read
  · intro es f d h hsound
    cases d with
    | write value =>
        have hwrap : f.AtWrap := not_not.mp hsound
        exact h.write_atWrap hword hwrap value
    | read => exact absurd True.intro hsound

/-- A ring of four slots: two writes and two reads stay clear of the wrap. -/
theorem fifo_correct_iff_four :
    Correct 4 (answers 4 (fun _ => 0) [.write 1, .write 2, .read, .read]) ↔
      NeverAtWrap 4 (fun _ => 0) [.write 1, .write 2, .read, .read] :=
  fifo_correct_iff 4 (by decide) (by decide) (fun _ => 0) [.write 1, .write 2, .read, .read]

/-- Two slots, two writes and a read: the second write is accepted with one byte
unread, and the read then finds the queue empty. -/
theorem fifo_overwrites_at_wrap :
    ¬ Correct 2 (answers 2 (fun _ => 0) [.write 1, .write 2, .read]) := by
  intro h
  have hread := h [.wrote 1 true, .wrote 2 true] (.read none) [] (by decide)
  simp [Meets, unread, accepted, delivered] at hread

end FIFO

end MierOS.Serial
