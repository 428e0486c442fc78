/-
  MierOS.Streams.Termios
  **THE TERMINAL INPUT RING**: `TermiosHelper` of `termios.cpp`.

  Three heads move through one ring of 4096 bytes: bytes are stored at the write
  head, a finished line moves the line head up to it, and reads stop at the line
  head.  The test for a full ring compares `f_write_head + 1` without wrapping
  it, and erasing steps the write head back without wrapping either.

  What happens to each byte is kept in a trace, which is replayed on a queue of
  committed bytes and an unfinished line.

  Main result: `input_ring_queue`.
-/
import MierOS.Lib.Ring
import MierOS.Lib.Run

namespace MierOS.Streams.Termios

open Lib Lib.Ring

/-! ## §1. Settings and translation. -/

abbrev Byte := BitVec 8

/-- The flags and control characters that the input path looks at. -/
structure Settings where
  iflag : BitVec 32
  oflag : BitVec 32
  lflag : BitVec 32
  cc : Nat → BitVec 32

/-- Indices into `c_cc`. -/
def VEOF : Nat := 0
def VEOL : Nat := 1
def VERASE : Nat := 2
def VINTR : Nat := 3
def VKILL : Nat := 4
def VQUIT : Nat := 6
def VSTART : Nat := 7
def VSTOP : Nat := 8
def VSUSP : Nat := 9

/-- Bits of `c_iflag`; `PARENB` belongs to `c_cflag`, but is tested here. -/
def IGNBRK : BitVec 32 := 1
def BRKINT : BitVec 32 := 2
def IGNPAR : BitVec 32 := 4
def PARMRK : BitVec 32 := 8
def PARENB : BitVec 32 := 16
def ISTRIP : BitVec 32 := 32
def INLCR : BitVec 32 := 64
def IGNCR : BitVec 32 := 128
def ICRNL : BitVec 32 := 256

/-- Bits of `c_oflag`. -/
def OPOST : BitVec 32 := 1
def ONLCR : BitVec 32 := 2
def OCRNL : BitVec 32 := 4
def ONLRET : BitVec 32 := 16

/-- Bits of `c_lflag`. -/
def ICANON : BitVec 32 := 2

/-- `'\b'`, `'\n'` and `'\r'`. -/
def backspace : Byte := 8
def newline : Byte := 10
def carriageReturn : Byte := 13

def has (flags mask : BitVec 32) : Bool := flags &&& mask != 0

/-- A status bit of the received data. -/
def hasStatus (data mask : BitVec 16) : Bool := data &&& mask != 0

/-- `MATCH_CC`. -/
def matchCC (t : Settings) (cc : Nat) (c : Byte) : Bool := t.cc cc != 0 && t.cc cc == c.setWidth 32

/-- `handle_conditions`. -/
def handleConditions (t : Settings) (data : BitVec 16) : Bool :=
  if hasStatus data 0x200 && has t.iflag IGNBRK then false
  else if hasStatus data 0x100 && has t.iflag IGNPAR then false
  else if has t.iflag IGNCR && data.setWidth 8 == carriageReturn then false
  else true

/-- The parity part of `translate_character_input`; `none` falls through. -/
def translateParity (t : Settings) (c : BitVec 16) : Option (List Byte) :=
  if has t.iflag PARENB then
    if has t.iflag PARMRK then
      if hasStatus c 0x100 then some [127, 0, c.setWidth 8]
      else if c = 127 then some [127, 127]
      else none
    else if hasStatus c 0x100 then some [0]
    else none
  else none

/-- `translate_character_input`. -/
def translateCharacterInput (t : Settings) (c : BitVec 16) : List Byte :=
  match translateParity t c with
  | some result => result
  | none =>
      if !has t.iflag BRKINT && has t.iflag PARMRK && hasStatus c 0x200 then [127, 0, 0]
      else if c = newline.setWidth 16 ∧ has t.iflag INLCR then [carriageReturn]
      else if c = carriageReturn.setWidth 16 ∧ has t.iflag ICRNL then [newline]
      else [c.setWidth 8 &&& if has t.iflag ISTRIP then 0x7F else 0xFF]

/-- The bytes `write_output` gives to the callback. -/
def outputBytes (t : Settings) (c : Byte) : List Byte :=
  if has t.oflag OPOST then
    if c = newline ∧ has t.oflag ONLCR then [carriageReturn, c]
    else if c = carriageReturn then
      if has t.oflag ONLRET then []
      else if has t.oflag OCRNL then [newline]
      else [c]
    else [c]
  else [c]

/-! ## §2. The ring. -/

/-- What happens to a byte of the ring, or to its unfinished line. -/
inductive Op where
  /-- Stored in the ring. -/
  | accept (c : Byte)
  /-- Not stored, since the ring looked full. -/
  | drop (c : Byte)
  /-- The last byte stored is taken back. -/
  | erase
  /-- The bytes stored so far may be read. -/
  | commit
  /-- Returned by a read. -/
  | take (c : Byte)
  deriving Repr, DecidableEq

/-- The size of the ring. -/
def ringSize : Nat := 4096

/-- A `TermiosHelper`, with the bytes its callback was given and what has happened to
the bytes of the ring. -/
structure TermiosHelper where
  termios : Settings
  writeHead : Nat
  lineHead : Nat
  readHead : Nat
  inputBuffer : Nat → Byte
  output : List Byte
  trace : List Op

/-- Which branch of `handle_canon` a character takes. -/
inductive CanonKey where
  | eof
  | eol
  /-- The empty branches of `VERASE` and `VKILL`. -/
  | ignored
  | endOfLine
  | erase
  | other
  deriving Repr, DecidableEq

def canonKey (t : Settings) (character : Byte) : CanonKey :=
  if matchCC t VEOF character then .eof
  else if matchCC t VEOL character then .eol
  else if matchCC t VERASE character then .ignored
  else if matchCC t VKILL character then .ignored
  else if character = carriageReturn then .endOfLine
  else if character = backspace then .erase
  else .other

namespace TermiosHelper

/-- `TermiosHelper()`; the ring is not initialised. -/
def new (inputBuffer : Nat → Byte) : TermiosHelper where
  termios :=
    { iflag := 0
      oflag := 0
      lflag := 0
      cc := fun i =>
        if i = VEOF then 0o004 else if i = VERASE then 0o177 else if i = VINTR then 0o003
        else if i = VKILL then 0o025 else if i = VQUIT then 0o034 else if i = VSTART then 0o021
        else if i = VSTOP then 0o023 else if i = VSUSP then 0o032 else 0 }
  writeHead := 0
  lineHead := 0
  readHead := 0
  inputBuffer := inputBuffer
  output := []
  trace := []

def record (s : TermiosHelper) (op : Op) : TermiosHelper := { s with trace := s.trace ++ [op] }

/-- `write_output`. -/
def writeOutput (s : TermiosHelper) (c : Byte) : TermiosHelper :=
  { s with output := s.output ++ outputBytes s.termios c }

/-- `write_input`. -/
def writeInput (s : TermiosHelper) (c : Byte) : TermiosHelper :=
  -- the test adds one without the `% 4096` of the assignment
  if (s.writeHead + 1) % 2 ^ 64 = s.readHead then s.record (.drop c)
  else { s.record (.accept c) with
    inputBuffer := Function.update s.inputBuffer s.writeHead c,
    writeHead := (s.writeHead + 1) % 2 ^ 64 % ringSize }

/-- `read_input`, with data available. -/
def readInput (s : TermiosHelper) : TermiosHelper :=
  { s.record (.take (s.inputBuffer s.readHead)) with readHead := (s.readHead + 1) % ringSize }

/-- `f_line_head = f_write_head`. -/
def passLine (s : TermiosHelper) : TermiosHelper := { s.record .commit with lineHead := s.writeHead }

/-- `--f_write_head`, which may wrap. -/
def stepBack (s : TermiosHelper) : TermiosHelper :=
  { s.record .erase with writeHead := (s.writeHead + (2 ^ 64 - 1)) % 2 ^ 64 }

@[simp] theorem stepBack_termios (s : TermiosHelper) : s.stepBack.termios = s.termios := by
  unfold stepBack
  rfl

@[simp] theorem stepBack_trace (s : TermiosHelper) : s.stepBack.trace = s.trace ++ [.erase] := by
  unfold stepBack
  rfl

/-- `handle_canon`, with its result. -/
def handleCanon (s : TermiosHelper) (character : Byte) : TermiosHelper × Bool :=
  match canonKey s.termios character with
  | .eof => ((s.writeInput carriageReturn).passLine, false)
  | .eol => (s.passLine, false)
  -- the empty branches fall through, and the character is stored
  | .ignored => (s, true)
  | .endOfLine => (s.passLine, false)
  | .erase => (if s.lineHead > s.writeHead then (s.writeOutput backspace).stepBack else s, false)
  | .other => (s, true)

/-- The loop of `character_received` over the translated bytes. -/
def storeAll (s : TermiosHelper) (bytes : List Byte) : TermiosHelper := bytes.foldl writeInput s

/-- `character_received`; `handle_signal` and `handle_flow` let everything through. -/
def characterReceived (s : TermiosHelper) (data : BitVec 16) : TermiosHelper :=
  let s := s.writeOutput (data.setWidth 8)
  if handleConditions s.termios data then
    let output := translateCharacterInput s.termios data
    if has s.termios.lflag ICANON then
      let r := s.handleCanon (output.getLastD 0)
      if r.2 then r.1.storeAll output else r.1
    else s.storeAll output
  else s

/-- The loop of `stream_read`. -/
def readLoop : Nat → TermiosHelper → TermiosHelper
  | 0, s => s
  | n + 1, s => if s.lineHead = s.readHead then s else readLoop n s.readInput

/-- `stream_read(buffer, length)`; `none` when it waits for a line. -/
def streamRead (s : TermiosHelper) (length : Nat) : Option TermiosHelper :=
  if has s.termios.lflag ICANON ∧ s.lineHead = s.readHead then none else some (readLoop length s)

end TermiosHelper

/-- A character arrives, the stream is read, or the settings are changed through
`termios()`. -/
inductive Event where
  | received (data : BitVec 16)
  | read (length : Nat)
  | setTermios (t : Settings)

def exec (s : TermiosHelper) : Event → Option TermiosHelper
  | .received data => some (s.characterReceived data)
  | .read length => s.streamRead length
  | .setTermios t => some { s with termios := t }

def Step (s : TermiosHelper) (e : Event) (s' : TermiosHelper) : Prop := exec s e = some s'

/-! ## §3. The queue it should be. -/

/-- The bytes that may be read and those of the unfinished line. -/
structure Queue where
  committed : List Byte
  line : List Byte
  deriving Repr, DecidableEq

namespace Queue

def empty : Queue := ⟨[], []⟩

/-- Accepted and neither read nor erased. -/
def pending (q : Queue) : List Byte := q.committed ++ q.line

/-- **What may happen to a queue**: a byte is accepted, or dropped when 4095 are pending,
the last byte of the unfinished line is erased, and the oldest committed one is read. -/
def apply (q : Queue) : Op → Option Queue
  | .accept c => some ⟨q.committed, q.line ++ [c]⟩
  | .drop _ => if q.pending.length = ringSize - 1 then some q else none
  | .erase => if q.line = [] then none else some ⟨q.committed, q.line.dropLast⟩
  | .commit => some ⟨q.committed ++ q.line, []⟩
  | .take c => if q.committed.head? = some c then some ⟨q.committed.tail, q.line⟩ else none

/-- A trace replayed on a queue. -/
def replay (q : Queue) (ops : List Op) : Option Queue := ops.foldlM apply q

end Queue

/-- The bytes returned by reads. -/
def taken (ops : List Op) : List Byte :=
  ops.filterMap fun op => match op with | .take c => some c | _ => none

/-- The bytes accepted and not erased, in order. -/
def kept (ops : List Op) : List Byte :=
  ops.foldl (fun bytes op => match op with | .accept c => bytes ++ [c] | .erase => bytes.dropLast | _ => bytes) []

/-- **The ring stores the queue**, from the read head over the line head to the write
head. -/
structure Stores (s : TermiosHelper) (q : Queue) : Prop where
  lineHead : s.lineHead = (s.readHead + q.committed.length) % ringSize
  writeHead : s.writeHead = (s.readHead + q.pending.length) % ringSize
  bytes : ∀ i (h : i < q.pending.length), s.inputBuffer ((s.readHead + i) % ringSize) = q.pending[i]

/-- The same with one slot free, so that the heads tell the parts apart. -/
structure Holds (s : TermiosHelper) (q : Queue) : Prop extends Stores s q where
  readHead : s.readHead < ringSize
  room : q.pending.length < ringSize

/-! ## §4. The condition. -/

/-- The bytes a character has stored in the ring. -/
def storedBytes (t : Settings) (data : BitVec 16) : List Byte :=
  if handleConditions t data then
    let output := translateCharacterInput t data
    if has t.lflag ICANON then
      match canonKey t (output.getLastD 0) with
      | .eof => [carriageReturn]
      | .ignored => output
      | .other => output
      | _ => []
    else output
  else []

/-- The character erases. -/
def erases (t : Settings) (data : BitVec 16) : Prop :=
  handleConditions t data = true ∧ has t.lflag ICANON = true
    ∧ canonKey t ((translateCharacterInput t data).getLastD 0) = .erase

/-- **The condition on a step**: nothing is stored with the write head at 4095 and the
read head at 0, and nothing is erased with the write head at 0 and the line head behind
it. -/
def Meets (s : TermiosHelper) : Event → Prop
  | .received data =>
      (s.readHead = 0 → s.writeHead + (storedBytes s.termios data).length < ringSize)
        ∧ (erases s.termios data → ¬ (s.writeHead = 0 ∧ 0 < s.lineHead))
  | .read _ => True
  | .setTermios _ => True

/-! ## §5. What the operations do to the queue. -/

section Operations

variable {s s' : TermiosHelper} {q q' : Queue} {c : Byte}

theorem Holds.writeHead_lt (h : Holds s q) : s.writeHead < ringSize := by
  rw [h.writeHead]
  exact Nat.mod_lt _ (by decide)

theorem Holds.lineHead_lt (h : Holds s q) : s.lineHead < ringSize := by
  rw [h.lineHead]
  exact Nat.mod_lt _ (by decide)

theorem Queue.length_pending (q : Queue) :
    q.pending.length = q.committed.length + q.line.length := List.length_append

/-- There is nothing to read exactly when the line head is at the read head. -/
theorem Holds.lineHead_eq_readHead_iff (h : Holds s q) : s.lineHead = s.readHead ↔ q.committed = [] := by
  have hroom := h.room
  have hlen := q.length_pending
  rw [h.lineHead, slot_eq_self_iff h.readHead (by omega), List.length_eq_zero_iff]

/-- There is no unfinished line exactly when the line head is at the write head. -/
theorem Holds.lineHead_eq_writeHead_iff (h : Holds s q) : s.lineHead = s.writeHead ↔ q.line = [] := by
  have hroom := h.room
  have hlen := q.length_pending
  rw [h.lineHead, h.writeHead]
  constructor
  · intro heq
    have hsame := slot_inj (by omega) hroom heq
    exact List.length_eq_zero_iff.mp (by omega)
  · intro hline
    have hzero := List.length_eq_zero_iff.mpr hline
    rw [hlen, hzero, Nat.add_zero]

theorem step_mod (hw : s.writeHead < ringSize) : (s.writeHead + 1) % 2 ^ 64 = s.writeHead + 1 :=
  Nat.mod_eq_of_lt (by unfold ringSize at hw; omega)

/-- **A byte that finds room is stored.** -/
theorem Holds.accept (h : Holds s q) (hroom : q.pending.length < ringSize - 1) (c : Byte) :
    s.writeInput c = { s.record (.accept c) with
        inputBuffer := Function.update s.inputBuffer s.writeHead c,
        writeHead := (s.readHead + (q.pending.length + 1)) % ringSize }
      ∧ Holds (s.writeInput c) ⟨q.committed, q.line ++ [c]⟩ := by
  have hw := h.writeHead_lt
  have hnotfull : (s.writeHead + 1) % 2 ^ 64 ≠ s.readHead := by
    rw [step_mod hw]
    intro heq
    -- a full ring would be 4095 bytes away
    have hslot : (s.readHead + (q.pending.length + 1)) % ringSize = s.readHead := by
      rw [← Nat.add_assoc, ← Nat.mod_add_mod, ← h.writeHead, heq, Nat.mod_eq_of_lt h.readHead]
    have hzero := (slot_eq_self_iff h.readHead (by omega)).mp hslot
    omega
  have hnext : (s.writeHead + 1) % 2 ^ 64 % ringSize
      = (s.readHead + (q.pending.length + 1)) % ringSize := by
    rw [step_mod hw, h.writeHead, Nat.mod_add_mod, Nat.add_assoc]
  have hdef : s.writeInput c = { s.record (.accept c) with
      inputBuffer := Function.update s.inputBuffer s.writeHead c,
      writeHead := (s.readHead + (q.pending.length + 1)) % ringSize } := by
    unfold TermiosHelper.writeInput
    rw [if_neg hnotfull, hnext]
  refine ⟨hdef, ?_⟩
  have hpending : Queue.pending ⟨q.committed, q.line ++ [c]⟩ = q.pending ++ [c] :=
    (List.append_assoc q.committed q.line [c]).symm
  rw [hdef]
  refine ⟨⟨h.lineHead, ?_, ?_⟩, h.readHead, ?_⟩
  · rw [hpending, List.length_append, List.length_singleton]
    rfl
  · intro i hi
    rw [hpending, List.length_append, List.length_singleton] at hi
    show Function.update s.inputBuffer s.writeHead c ((s.readHead + i) % ringSize) = _
    by_cases hlast : i = q.pending.length
    -- the slot under the write head, which holds no pending byte
    · subst hlast
      rw [← h.writeHead, Function.update_self]
      simp only [hpending, List.getElem_concat_length]
    · have hlt : i < q.pending.length := by omega
      have hslot : (s.readHead + i) % ringSize ≠ s.writeHead := by
        rw [h.writeHead]
        exact add_mod_ne hlt h.room
      rw [Function.update_of_ne hslot, h.bytes i hlt]
      simp only [hpending, List.getElem_append_left hlt]
  · rw [hpending, List.length_append, List.length_singleton]
    omega

/-- **A byte that finds none is dropped**, unless the heads are at 4095 and 0. -/
theorem Holds.full (h : Holds s q) (hfull : q.pending.length = ringSize - 1)
    (hedge : s.readHead = 0 → s.writeHead + 1 < ringSize) (c : Byte) :
    s.writeInput c = s.record (.drop c) := by
  have hw := h.writeHead_lt
  have hr := h.readHead
  have hhead := h.writeHead
  rw [hfull] at hhead
  unfold TermiosHelper.writeInput
  rw [if_pos]
  rw [step_mod hw]
  unfold ringSize at *
  -- one slot behind the read head
  omega

theorem Holds.record (h : Holds s q) (op : Op) : Holds (s.record op) q :=
  ⟨⟨h.lineHead, h.writeHead, h.bytes⟩, h.readHead, h.room⟩

theorem Holds.writeOutput (h : Holds s q) (c : Byte) : Holds (s.writeOutput c) q :=
  ⟨⟨h.lineHead, h.writeHead, h.bytes⟩, h.readHead, h.room⟩

/-- **The line is finished.** -/
theorem Holds.passLine (h : Holds s q) : Holds s.passLine ⟨q.committed ++ q.line, []⟩ := by
  have hpending : Queue.pending ⟨q.committed ++ q.line, []⟩ = q.pending := List.append_nil _
  refine ⟨⟨h.writeHead, ?_, ?_⟩, h.readHead, ?_⟩
  · rw [hpending]
    exact h.writeHead
  · intro i hi
    simp only [hpending]
    exact h.bytes i (by rw [hpending] at hi; exact hi)
  · rw [hpending]
    exact h.room

/-- **The last byte of the line is erased**, which keeps the write head in the ring when
it is not at 0. -/
theorem Holds.stepBack (h : Holds s q) (hline : q.line ≠ []) (hw : s.writeHead ≠ 0) :
    Holds s.stepBack ⟨q.committed, q.line.dropLast⟩ := by
  have hpending : Queue.pending ⟨q.committed, q.line.dropLast⟩ = q.pending.dropLast :=
    (List.dropLast_append_of_ne_nil hline).symm
  have hpos : 0 < q.pending.length := by
    rw [q.length_pending]
    have := List.length_pos_iff.mpr hline
    omega
  have hlt := h.writeHead_lt
  have hhead := h.writeHead
  have hr := h.readHead
  have hroom := h.room
  have hback : (s.writeHead + (2 ^ 64 - 1)) % 2 ^ 64
      = (s.readHead + (q.pending.length - 1)) % ringSize := by
    unfold ringSize at *
    omega
  have hdef : s.stepBack = { s.record .erase with
      writeHead := (s.readHead + (q.pending.length - 1)) % ringSize } := by
    unfold TermiosHelper.stepBack
    rw [hback]
  rw [hdef]
  refine ⟨⟨h.lineHead, ?_, ?_⟩, h.readHead, ?_⟩
  · rw [hpending, List.length_dropLast]
    rfl
  · intro i hi
    rw [hpending, List.length_dropLast] at hi
    simp only [hpending, List.getElem_dropLast]
    exact h.bytes i (by omega)
  · rw [hpending, List.length_dropLast]
    omega

/-- **The oldest committed byte is read.** -/
theorem Holds.readInput (h : Holds s q) {rest : List Byte} (hq : q.committed = c :: rest) :
    s.inputBuffer s.readHead = c ∧ Holds s.readInput ⟨rest, q.line⟩ := by
  have hpending : q.pending = c :: Queue.pending ⟨rest, q.line⟩ := by
    unfold Queue.pending
    rw [hq]
    rfl
  have hlen : q.pending.length = (Queue.pending ⟨rest, q.line⟩).length + 1 := by
    rw [hpending]
    rfl
  have hroom := h.room
  refine ⟨?_, ?_⟩
  · have hfirst := h.bytes 0 (by omega)
    rw [Nat.add_zero, Nat.mod_eq_of_lt h.readHead] at hfirst
    rw [hfirst]
    simp only [hpending, List.getElem_cons_zero]
  · refine ⟨⟨?_, ?_, ?_⟩, Nat.mod_lt _ (by decide), by omega⟩
    · show s.lineHead = ((s.readHead + 1) % ringSize + rest.length) % ringSize
      rw [slot_next, h.lineHead, hq]
      rfl
    · show s.writeHead = ((s.readHead + 1) % ringSize + _) % ringSize
      rw [slot_next, h.writeHead, hlen]
    · intro i hi
      show s.inputBuffer (((s.readHead + 1) % ringSize + i) % ringSize) = _
      rw [slot_next, h.bytes (i + 1) (by omega)]
      simp only [hpending, List.getElem_cons_succ]

end Operations

/-! ## §6. Traces. -/

/-- The trace leads to a queue, and the ring holds it. -/
structure Good (s : TermiosHelper) (q : Queue) : Prop where
  replayed : Queue.empty.replay s.trace = some q
  holds : Holds s q

section Traces

variable {s s' : TermiosHelper} {q q' : Queue} {c : Byte}

theorem Good.new (inputBuffer : Nat → Byte) : Good (TermiosHelper.new inputBuffer) Queue.empty where
  replayed := rfl
  holds := ⟨⟨rfl, rfl, fun i hi => absurd hi (Nat.not_lt_zero i)⟩, (by decide : 0 < ringSize), by decide⟩

/-- One more operation of the trace. -/
theorem Good.op (h : Good s q) (op : Op) (happly : q.apply op = some q')
    (htrace : s'.trace = s.trace ++ [op]) (hholds : Holds s' q') : Good s' q' := by
  refine ⟨?_, hholds⟩
  have hreplayed : s.trace.foldlM Queue.apply Queue.empty = some q := h.replayed
  unfold Queue.replay
  rw [htrace, List.foldlM_append, hreplayed]
  show [op].foldlM Queue.apply q = some q'
  rw [List.foldlM_cons, happly]
  rfl

theorem Good.writeOutput (h : Good s q) (c : Byte) : Good (s.writeOutput c) q :=
  ⟨h.replayed, h.holds.writeOutput c⟩

theorem writeInput_heads (s : TermiosHelper) (c : Byte) :
    (s.writeInput c).readHead = s.readHead ∧ (s.writeInput c).writeHead ≤ s.writeHead + 1 := by
  unfold TermiosHelper.writeInput
  split
  · exact ⟨rfl, Nat.le_succ _⟩
  · exact ⟨rfl, Nat.le_trans (Nat.mod_le _ _) (Nat.mod_le _ _)⟩

/-- A byte is stored, or dropped from a full ring. -/
theorem Good.writeInput (h : Good s q) (hedge : s.readHead = 0 → s.writeHead + 1 < ringSize) (c : Byte) :
    ∃ q', Good (s.writeInput c) q' := by
  have hroom := h.holds.room
  by_cases hfull : q.pending.length = ringSize - 1
  · have hdrop := h.holds.full hfull hedge c
    refine ⟨q, h.op (.drop c) (if_pos hfull) ?_ ?_⟩
    · rw [hdrop]
      rfl
    · rw [hdrop]
      exact h.holds.record _
  · have hlt : q.pending.length < ringSize - 1 := by omega
    obtain ⟨hdef, hholds⟩ := h.holds.accept hlt c
    refine ⟨_, h.op (.accept c) rfl ?_ hholds⟩
    rw [hdef]
    rfl

theorem Good.storeAll (h : Good s q) {bytes : List Byte}
    (hedge : s.readHead = 0 → s.writeHead + bytes.length < ringSize) :
    ∃ q', Good (s.storeAll bytes) q' := by
  induction bytes generalizing s q with
  | nil => exact ⟨q, h⟩
  | cons c bytes ih =>
      have hfirst : s.readHead = 0 → s.writeHead + 1 < ringSize := by
        intro hr
        have hsum := hedge hr
        rw [List.length_cons] at hsum
        omega
      obtain ⟨q', h'⟩ := h.writeInput hfirst c
      obtain ⟨hread, hwrite⟩ := writeInput_heads s c
      refine ih h' fun hr => ?_
      have hsum := hedge (hread.symm.trans hr)
      rw [List.length_cons] at hsum
      omega

theorem Good.passLine (h : Good s q) : Good s.passLine ⟨q.committed ++ q.line, []⟩ :=
  h.op .commit rfl rfl h.holds.passLine

/-- `handle_canon` and the loop behind it. -/
theorem Good.handleCanon (h : Good s q) {output : List Byte} (character : Byte)
    (hedge : s.readHead = 0 → s.writeHead + (match canonKey s.termios character with
      | .eof => [carriageReturn]
      | .ignored => output
      | .other => output
      | _ => []).length < ringSize)
    (herase : canonKey s.termios character = .erase → ¬ (s.writeHead = 0 ∧ 0 < s.lineHead)) :
    ∃ q', Good (if (s.handleCanon character).2 then (s.handleCanon character).1.storeAll output
      else (s.handleCanon character).1) q' := by
  unfold TermiosHelper.handleCanon
  cases hkey : canonKey s.termios character with
  | eof =>
      rw [hkey] at hedge
      obtain ⟨q', h'⟩ := h.writeInput hedge carriageReturn
      exact ⟨_, h'.passLine⟩
  | eol => exact ⟨_, h.passLine⟩
  | ignored =>
      rw [hkey] at hedge
      exact h.storeAll hedge
  | endOfLine => exact ⟨_, h.passLine⟩
  | erase =>
      -- the branch erases only from a line that wraps around the ring
      by_cases hgt : s.lineHead > s.writeHead
      · have hw : s.writeHead ≠ 0 := fun hzero => herase hkey ⟨hzero, by omega⟩
        have hline : q.line ≠ [] := by
          intro hnil
          have heq := h.holds.lineHead_eq_writeHead_iff.mpr hnil
          omega
        dsimp only
        rw [if_neg (by decide), if_pos hgt]
        refine ⟨_, (h.writeOutput backspace).op .erase (if_neg hline) rfl ?_⟩
        exact (h.holds.writeOutput backspace).stepBack hline hw
      · dsimp only
        rw [if_neg (by decide), if_neg hgt]
        exact ⟨q, h⟩
  | other =>
      rw [hkey] at hedge
      exact h.storeAll hedge

theorem Good.characterReceived (h : Good s q) {data : BitVec 16} (hmeets : Meets s (.received data)) :
    ∃ q', Good (s.characterReceived data) q' := by
  obtain ⟨hedge, herase⟩ := hmeets
  have hout := h.writeOutput (data.setWidth 8)
  unfold storedBytes at hedge
  unfold TermiosHelper.characterReceived
  dsimp only
  have htermios : (s.writeOutput (data.setWidth 8)).termios = s.termios := rfl
  rw [htermios]
  by_cases hcond : handleConditions s.termios data = true
  · rw [if_pos hcond] at hedge ⊢
    dsimp only at hedge
    by_cases hcanon : has s.termios.lflag ICANON = true
    · rw [if_pos hcanon] at hedge ⊢
      exact hout.handleCanon _ hedge (fun hkey => herase ⟨hcond, hcanon, hkey⟩)
    · rw [if_neg hcanon] at hedge ⊢
      exact hout.storeAll hedge
  · rw [if_neg hcond]
    exact ⟨q, hout⟩

/-- The bytes that a read returns are the first committed ones. -/
theorem Good.readLoop (h : Good s q) (n : Nat) : ∃ q', Good (TermiosHelper.readLoop n s) q' := by
  induction n generalizing s q with
  | zero => exact ⟨q, h⟩
  | succ n ih =>
      unfold TermiosHelper.readLoop
      by_cases hempty : s.lineHead = s.readHead
      · rw [if_pos hempty]
        exact ⟨q, h⟩
      · rw [if_neg hempty]
        cases hq : q.committed with
        | nil => exact absurd (h.holds.lineHead_eq_readHead_iff.mpr hq) hempty
        | cons c rest =>
            obtain ⟨hbyte, hholds⟩ := h.holds.readInput hq
            refine ih (h.op (.take c) ?_ ?_ hholds)
            · unfold Queue.apply
              rw [hq]
              exact if_pos rfl
            · unfold TermiosHelper.readInput
              rw [hbyte]
              rfl

/-- **Step lemma.** -/
theorem Good.exec (h : Good s q) {e : Event} (hmeets : Meets s e) (hexec : exec s e = some s') :
    ∃ q', Good s' q' := by
  cases e with
  | received data =>
      cases hexec
      exact h.characterReceived hmeets
  | read length =>
      have hexec : s.streamRead length = some s' := hexec
      unfold TermiosHelper.streamRead at hexec
      rcases ite_eq_iff.mp hexec with ⟨_, hwait⟩ | ⟨_, hdone⟩
      · cases hwait
      · cases hdone
        exact h.readLoop length
  | setTermios t =>
      cases hexec
      exact ⟨q, h.replayed, ⟨h.holds.lineHead, h.holds.writeHead, h.holds.bytes⟩, h.holds.readHead,
        h.holds.room⟩

end Traces

/-- What an operation does to the bytes accepted and not erased. -/
def Op.edit (bytes : List Byte) : Op → List Byte
  | .accept c => bytes ++ [c]
  | .erase => bytes.dropLast
  | _ => bytes

theorem kept_eq (ops : List Op) : kept ops = ops.foldl Op.edit [] := rfl

/-- **Step lemma**: what was read, then what is pending, changes by the operation's edit. -/
theorem apply_edit {op : Op} {q q' : Queue} (h : q.apply op = some q') (before : List Byte) :
    before ++ taken [op] ++ q'.pending = Op.edit (before ++ q.pending) op := by
  unfold Queue.apply at h
  cases op with
  | accept c =>
      cases h
      show before ++ [] ++ (q.committed ++ (q.line ++ [c])) = before ++ (q.committed ++ q.line) ++ [c]
      simp
  | drop c =>
      obtain ⟨-, h⟩ := Option.ite_none_right_eq_some.mp h
      cases h
      rw [show taken [.drop c] = [] from rfl, List.append_nil]
      rfl
  | erase =>
      -- the unfinished line is not empty, so the last pending byte is its last
      obtain ⟨hline, h⟩ := Option.ite_none_left_eq_some.mp h
      cases h
      have hpending : q.pending ≠ [] := List.append_ne_nil_of_right_ne_nil _ hline
      show before ++ [] ++ (q.committed ++ q.line.dropLast) = (before ++ q.pending).dropLast
      rw [List.append_nil, List.dropLast_append_of_ne_nil hpending, Queue.pending,
        List.dropLast_append_of_ne_nil hline]
  | commit =>
      cases h
      show before ++ [] ++ (q.committed ++ q.line ++ []) = before ++ (q.committed ++ q.line)
      rw [List.append_nil, List.append_nil]
  | take c =>
      obtain ⟨hhead, h⟩ := Option.ite_none_right_eq_some.mp h
      cases h
      have hcommitted : c :: q.committed.tail = q.committed := (List.eq_cons_of_mem_head? hhead).symm
      show before ++ [c] ++ (q.committed.tail ++ q.line) = before ++ (q.committed ++ q.line)
      rw [List.append_assoc, ← List.append_assoc [c], List.singleton_append, hcommitted]

/-- **Run lemma**: a trace's operations edit one after another. -/
theorem replay_edit {ops : List Op} {q₀ q : Queue} (h : q₀.replay ops = some q)
    (before : List Byte) :
    before ++ taken ops ++ q.pending = ops.foldl Op.edit (before ++ q₀.pending) := by
  induction ops generalizing q₀ before with
  | nil =>
      cases h
      rw [show taken [] = [] from rfl, List.append_nil]
      rfl
  | cons op ops ih =>
      obtain ⟨q₁, hop, hrest⟩ := Option.bind_eq_some_iff.mp (show (q₀.apply op).bind _ = some q from h)
      have htaken : taken (op :: ops) = taken [op] ++ taken ops :=
        List.filterMap_append (l := [op])
      rw [List.foldl_cons, ← apply_edit hop, htaken, ← List.append_assoc]
      exact ih hrest (before ++ taken [op])

/-- **First in, first out**: what was read, then what is pending, is what was accepted and
not erased. -/
theorem replay_fifo {ops : List Op} {q : Queue} (h : Queue.empty.replay ops = some q) :
    taken ops ++ q.pending = kept ops := by
  rw [kept_eq]
  exact replay_edit h []

/-- The condition on a step, in the form runs take it. -/
def MeetsStep (_ : List Event) (s : TermiosHelper) (e : Event) : Prop := Meets s e

/-- **The ring is a queue**:

  1. the three heads are below 4096;
  2. the trace can be replayed on a queue, so that a byte was dropped only when 4095
     were pending, only bytes of the unfinished line were erased, and reads returned the
     oldest committed byte;
  3. the ring holds the bytes of that queue, fewer than 4096, so that no pending byte
     was overwritten;
  4. what was read, then what is pending, is what was accepted and not erased. -/
def TermiosHelper.IsQueue (s : TermiosHelper) : Prop :=
  s.writeHead < ringSize ∧ s.lineHead < ringSize ∧ s.readHead < ringSize
    ∧ ∃ q, Queue.empty.replay s.trace = some q ∧ Stores s q
      ∧ q.pending.length < ringSize
      ∧ taken s.trace ++ q.committed ++ q.line = kept s.trace

/-- **The terminal input ring is a queue** in every run whose steps meet the condition. -/
theorem input_ring_queue {inputBuffer : Nat → Byte} {hist : List Event} {s : TermiosHelper}
    (hrun : GuardedRun Step MeetsStep (TermiosHelper.new inputBuffer) hist s) : s.IsQueue := by
  have hgood : ∃ q, Good s q := by
    refine hrun.historyInvariant (fun _ s => ∃ q, Good s q) ⟨_, Good.new inputBuffer⟩ ?_
    intro _ s e s' ⟨q, h⟩ hmeets hst
    exact h.exec hmeets hst
  obtain ⟨q, h⟩ := hgood
  refine ⟨h.holds.writeHead_lt, h.holds.lineHead_lt, h.holds.readHead, q, h.replayed,
    h.holds.toStores, h.holds.room, ?_⟩
  rw [List.append_assoc]
  exact replay_fifo h.replayed

/-- Canonical mode without control characters. -/
def canonical : Settings := ⟨0, 0, ICANON, fun _ => 0⟩

/-- A line is typed and read. -/
def typedLine : List Event := [.read 10, .received 13, .received 98, .received 97, .setTermios canonical]

theorem input_ring_queue_line :
    ∃ s, GuardedRun Step MeetsStep (TermiosHelper.new fun _ => 0) typedLine s
      ∧ taken s.trace = [97, 98] ∧ s.IsQueue := by
  obtain ⟨s, hrun, htaken⟩ : ∃ s, GuardedRun Step MeetsStep (TermiosHelper.new fun _ => 0) typedLine s
      ∧ taken s.trace = [97, 98] := by
    refine ⟨_, .step (.step (.step (.step (.step .init ?_ rfl) ?_ rfl) ?_ rfl) ?_ rfl) ?_ rfl, by decide⟩
    · trivial
    · exact ⟨fun _ => by decide, fun h => absurd h.2.2 (by decide)⟩
    · exact ⟨fun _ => by decide, fun h => absurd h.2.2 (by decide)⟩
    · exact ⟨fun _ => by decide, fun h => absurd h.2.2 (by decide)⟩
    · trivial
  exact ⟨s, hrun, htaken, input_ring_queue hrun⟩

/-- A letter received in the settings of the constructor, with the read head at 0. -/
theorem characterReceived_letter {s : TermiosHelper}
    (htermios : s.termios = (TermiosHelper.new fun _ => 0).termios) (hread : s.readHead = 0)
    (hw : s.writeHead < ringSize) (c : BitVec 16) (hc : c = 97 ∨ c = 98) :
    s.characterReceived c = { (s.writeOutput (c.setWidth 8)).record (.accept (c.setWidth 8)) with
      inputBuffer := Function.update s.inputBuffer s.writeHead (c.setWidth 8),
      writeHead := (s.writeHead + 1) % ringSize } := by
  have hreceived : s.characterReceived c = (s.writeOutput (c.setWidth 8)).writeInput (c.setWidth 8) := by
    unfold TermiosHelper.characterReceived
    dsimp only
    rw [show (s.writeOutput (c.setWidth 8)).termios = (TermiosHelper.new fun _ => 0).termios
      from htermios]
    rcases hc with rfl | rfl <;> rfl
  rw [hreceived]
  unfold TermiosHelper.writeInput
  have hnotfull : ((s.writeOutput (c.setWidth 8)).writeHead + 1) % 2 ^ 64
      ≠ (s.writeOutput (c.setWidth 8)).readHead := by
    show (s.writeHead + 1) % 2 ^ 64 ≠ s.readHead
    rw [step_mod hw, hread]
    exact Nat.succ_ne_zero _
  rw [if_neg hnotfull]
  show _ = _
  rw [show (s.writeOutput (c.setWidth 8)).writeHead = s.writeHead from rfl, step_mod hw]
  rfl

theorem foldl_accepts (n : Nat) :
    kept (List.replicate n (.accept 97)) = List.replicate n 97 := by
  induction n with
  | zero => rfl
  | succ n ih =>
      unfold kept at ih ⊢
      rw [List.replicate_succ', List.foldl_append, ih]
      exact List.replicate_succ'.symm

/-- The first of the letters is still pending when none was read or erased. -/
theorem first_letter (n : Nat) (hn : 0 < n) {ops : List Op} {q : Queue}
    (hops : ops = List.replicate n (.accept 97) ++ [.accept 98])
    (hfifo : taken ops ++ q.committed ++ q.line = kept ops) :
    ∃ hlen : 0 < q.pending.length, q.pending[0] = 97 := by
  have htaken : taken ops = [] := by
    unfold taken
    rw [hops, List.filterMap_append, List.filterMap_replicate_of_none rfl]
    rfl
  have hkept : kept ops = List.replicate n 97 ++ [98] := by
    rw [hops, ← foldl_accepts]
    exact List.foldl_append
  have hpending : q.pending = List.replicate n 97 ++ [98] := by
    rw [htaken, hkept, List.nil_append] at hfifo
    exact hfifo
  have hreplicate : (0 : Nat) < (List.replicate n (97 : Byte)).length := by
    rw [List.length_replicate]
    exact hn
  refine ⟨by rw [hpending, List.length_append]; omega, ?_⟩
  simp only [hpending, List.getElem_append_left hreplicate, List.getElem_replicate]

/-- Typing the same letter, in the settings of the constructor, stores it up to the last slot
of the ring. -/
theorem typed_letters (n : Nat) (hn : n ≤ ringSize) :
    ∃ s, Run Step (TermiosHelper.new fun _ => 0) (List.replicate n (.received 97)) s
      ∧ s.termios = (TermiosHelper.new fun _ => 0).termios ∧ s.readHead = 0
      ∧ s.writeHead = n % ringSize ∧ s.trace = List.replicate n (.accept 97) := by
  induction n with
  | zero => exact ⟨_, .init, rfl, rfl, rfl, rfl⟩
  | succ n ih =>
      obtain ⟨s, hrun, htermios, hread, hwrite, htrace⟩ := ih (by omega)
      have hw : s.writeHead = n := by
        rw [hwrite]
        exact Nat.mod_eq_of_lt hn
      have hstored := characterReceived_letter htermios hread (by omega) 97 (Or.inl rfl)
      refine ⟨_, .step hrun rfl, ?_⟩
      rw [hstored]
      refine ⟨htermios, hread, ?_, ?_⟩
      · show (s.writeHead + 1) % ringSize = (n + 1) % ringSize
        rw [hw]
      · show s.trace ++ [.accept 97] = List.replicate (n + 1) (.accept 97)
        rw [htrace, List.replicate_succ']

/-- **The 4096th letter is stored too**: with the heads at 4095 and 0 the ring does not look
full.  Another one then overwrites the first. -/
theorem full_ring_overwritten :
    ¬ ∀ (inputBuffer : Nat → Byte) (hist : List Event) (s : TermiosHelper),
      Run Step (TermiosHelper.new inputBuffer) hist s → s.IsQueue := by
  intro hall
  obtain ⟨s, hrun, htermios, hread, hwrite, htrace⟩ := typed_letters ringSize (Nat.le_refl _)
  rw [Nat.mod_self] at hwrite
  have hstored := characterReceived_letter htermios hread (by rw [hwrite]; decide) 98 (Or.inr rfl)
  have hstep : Step s (.received 98) (s.characterReceived 98) := rfl
  obtain ⟨_, _, _, q, _, hstores, _, hfifo⟩ := hall _ _ _ (hrun.step hstep)
  rw [hstored] at hstores hfifo
  have htrace' : s.trace ++ [.accept 98] = List.replicate ringSize (.accept 97) ++ [.accept 98] := by
    rw [htrace]
  obtain ⟨hlen, hfirst⟩ := first_letter ringSize (by decide) htrace' hfifo
  have hslot : (Function.update s.inputBuffer s.writeHead 98) ((s.readHead + 0) % ringSize)
      = q.pending[0] := hstores.bytes 0 hlen
  rw [hread, hwrite, Nat.add_zero, Nat.zero_mod, Function.update_self, hfirst] at hslot
  exact absurd hslot (by decide)

end MierOS.Streams.Termios
