/-
  MierOS.Streams.Pipe — `PipeStream` of `pipestream.cpp`: the two ends of a
  pipe around one 4096-byte ring.

  One read call and one write call can be under way at a time, each at a
  program point of its own; a step of either is one test of the shared fields
  or the transfer of ONE BYTE, and both ends can be closed between any two
  steps.  The calls of one end follow one another.

  Main results: `pipe_delivers_in_order`, `pipe_eof_iff`.
-/
import MierOS.Types
import MierOS.Lib.Run
import MierOS.Lib.Ring

namespace MierOS.Streams

open Lib

/-! ## §1. The pipe and the calls on its ends. -/

/-- `sizeof(f_buffer)`. -/
def bufferSize : Nat := 4096

/-- `PipeStream::StreamData`. -/
structure StreamData where
  writeClosed : Bool
  readClosed : Bool
  buffer : Nat → UInt8
  writeHead : Nat
  readHead : Nat

/-- Where `PipeStream::read` is: `got` are the bytes stored in the caller's
buffer so far, so that `readCount` is its length. -/
inductive Reading where
  /-- No read under way. -/
  | idle
  /-- Before the test `if(f_data->f_writeClosed) return 0`. -/
  | entry (length : Nat)
  /-- At `while(readCount < length)`, or back at the test of the heads. -/
  | loop (length : Nat) (got : List UInt8)
  /-- The heads were equal: before the test of `f_writeClosed` in the loop. -/
  | empty (length : Nat) (got : List UInt8)
  /-- The heads differed: before the transfer of a byte. -/
  | transfer (length : Nat) (got : List UInt8)
  deriving Repr, DecidableEq

/-- Where `PipeStream::write` is, with the caller's bytes. -/
inductive Writing where
  | idle
  /-- Before the test of `f_readClosed`. -/
  | entry (bytes : List UInt8)
  /-- At `while(writeCount < length)`, or back at the test for a full ring. -/
  | loop (bytes : List UInt8) (writeCount : Nat)
  /-- The ring had room: before the transfer of a byte. -/
  | transfer (bytes : List UInt8) (writeCount : Nat)
  deriving Repr, DecidableEq

/-- The bytes the read under way has taken out of the ring. -/
def Reading.got : Reading → List UInt8
  | .idle => []
  | .entry _ => []
  | .loop _ got => got
  | .empty _ got => got
  | .transfer _ got => got

/-- The bytes the write under way has put into the ring. -/
def Writing.put : Writing → List UInt8
  | .idle => []
  | .entry _ => []
  | .loop bytes writeCount => bytes.take writeCount
  | .transfer bytes writeCount => bytes.take writeCount

/-- The shared data, the call under way on each end, and every finished call
with what it returned: a read with the length asked for, a write with the
bytes it was given. -/
structure Pipe where
  data : StreamData
  reading : Reading
  writing : Writing
  reads : List (Nat × Except Errno (List UInt8))
  writes : List (List UInt8 × Except Errno Nat)

namespace Pipe

/-- `PipeStream::make_pair()`; the buffer is not initialised. -/
def makePair (uninitialised : Nat → UInt8) : Pipe where
  data := { writeClosed := false, readClosed := false, buffer := uninitialised
            writeHead := 0, readHead := 0 }
  reading := .idle
  writing := .idle
  reads := []
  writes := []

/-- The read under way returns `readCount` bytes. -/
def endRead (p : Pipe) (length : Nat) (got : List UInt8) : Pipe :=
  { p with reading := .idle, reads := p.reads ++ [(length, .ok got)] }

/-- The write under way returns. -/
def endWrite (p : Pipe) (bytes : List UInt8) (result : Except Errno Nat) : Pipe :=
  { p with writing := .idle, writes := p.writes ++ [(bytes, result)] }

/-- The next step of the read under way. -/
def readStep (p : Pipe) : Option Pipe :=
  match p.reading with
  | .idle => none
  | .entry length =>
      if p.data.writeClosed then some (p.endRead length [])
      else some { p with reading := .loop length [] }
  | .loop length got =>
      if got.length < length then
        if p.data.readHead = p.data.writeHead then some { p with reading := .empty length got }
        else some { p with reading := .transfer length got }
      else some (p.endRead length got)
  | .empty length got =>
      -- "Pipe closed mid read"
      if p.data.writeClosed then some (p.endRead length got)
      else some { p with reading := .loop length got }
  | .transfer length got =>
      some { p with
        reading := .loop length (got ++ [p.data.buffer p.data.readHead])
        data := { p.data with readHead := (p.data.readHead + 1) % bufferSize } }

/-- The next step of the write under way. -/
def writeStep (p : Pipe) : Option Pipe :=
  match p.writing with
  | .idle => none
  | .entry bytes =>
      if p.data.readClosed then some (p.endWrite bytes (.error .EPIPE))
      else some { p with writing := .loop bytes 0 }
  | .loop bytes writeCount =>
      if writeCount < bytes.length then
        if (p.data.writeHead + 1) % bufferSize = p.data.readHead then some p
        else some { p with writing := .transfer bytes writeCount }
      else some (p.endWrite bytes (.ok writeCount))
  | .transfer bytes writeCount =>
      some { p with
        writing := .loop bytes (writeCount + 1)
        data := { p.data with
          buffer := Function.update p.data.buffer p.data.writeHead (bytes.getD writeCount 0)
          writeHead := (p.data.writeHead + 1) % bufferSize } }

/-- What can happen next. -/
inductive Event where
  /-- `read(buffer, length)` on the write end or on the read end. -/
  | read (isWrite : Bool) (length : Nat)
  | readStep
  /-- `write(bytes, bytes.length)` on the write end or on the read end. -/
  | write (isWrite : Bool) (bytes : List UInt8)
  | writeStep
  /-- `~PipeStream()` of an end. -/
  | close (isWrite : Bool)
  deriving Repr, DecidableEq

/-- The pipe after an event; `none` where it cannot happen: a call on an end
that was destroyed, or on an end whose previous call has not returned. -/
def next (p : Pipe) : Event → Option Pipe
  | .read true length =>
      if p.data.writeClosed then none
      else some { p with reads := p.reads ++ [(length, .error .ENOTSUP)] }
  | .read false length =>
      if p.data.readClosed ∨ p.reading ≠ .idle then none
      else some { p with reading := .entry length }
  | .readStep => p.readStep
  | .write true bytes =>
      if p.data.writeClosed ∨ p.writing ≠ .idle then none
      else some { p with writing := .entry bytes }
  | .write false bytes =>
      if p.data.readClosed then none
      else some { p with writes := p.writes ++ [(bytes, .error .ENOTSUP)] }
  | .writeStep => p.writeStep
  | .close true => some { p with data := { p.data with writeClosed := true } }
  | .close false => some { p with data := { p.data with readClosed := true } }

/-- One event as a step. -/
def Step (p : Pipe) (e : Event) (p' : Pipe) : Prop := p.next e = some p'

/-! ## §2. What was accepted, what was returned. -/

/-- The bytes a finished read returned. -/
def readBytes : Nat × Except Errno (List UInt8) → List UInt8
  | (_, .ok got) => got
  | (_, .error _) => []

/-- The bytes a finished write accepted. -/
def writeBytes : List UInt8 × Except Errno Nat → List UInt8
  | (bytes, .ok writeCount) => bytes.take writeCount
  | (_, .error _) => []

/-- **All bytes returned by reads**, in order. -/
def returned (p : Pipe) : List UInt8 := p.reads.flatMap readBytes

/-- **All bytes accepted by writes**, in order, those of a write under way
included. -/
def accepted (p : Pipe) : List UInt8 := p.writes.flatMap writeBytes ++ p.writing.put

/-- The bytes between the heads. -/
def queued (p : Pipe) : List UInt8 :=
  Ring.contents bufferSize p.data.buffer p.data.readHead p.data.writeHead

/-- **The pipe invariant.** -/
structure Inv (p : Pipe) : Prop where
  readHead_lt : p.data.readHead < bufferSize
  writeHead_lt : p.data.writeHead < bufferSize
  stream : p.accepted = p.returned ++ p.reading.got ++ p.queued
  /-- A read about to transfer has a byte to take. -/
  nonempty : ∀ length got, p.reading = .transfer length got →
    p.data.readHead ≠ p.data.writeHead
  /-- A write about to transfer has a byte to give and room for it. -/
  room : ∀ bytes writeCount, p.writing = .transfer bytes writeCount →
    writeCount < bytes.length ∧ Ring.next bufferSize p.data.writeHead ≠ p.data.readHead

/-! ## §3. Every step keeps the invariant. -/

section Steps

variable {p p' : Pipe}

theorem inv_makePair (uninitialised : Nat → UInt8) : (makePair uninitialised).Inv where
  readHead_lt := show 0 < bufferSize by decide
  writeHead_lt := show 0 < bufferSize by decide
  stream := rfl
  nonempty := fun _ _ h => nomatch h
  room := fun _ _ h => nomatch h

/-- The reader moves to another program point with the bytes it has. -/
theorem Inv.moveReader (h : p.Inv) {r : Reading} (hgot : r.got = p.reading.got)
    (hne : ∀ length got, r = .transfer length got → p.data.readHead ≠ p.data.writeHead) :
    ({ p with reading := r } : Pipe).Inv where
  readHead_lt := h.readHead_lt
  writeHead_lt := h.writeHead_lt
  stream := by
    show p.accepted = p.returned ++ r.got ++ p.queued
    rw [hgot]
    exact h.stream
  nonempty := hne
  room := h.room

/-- The writer moves to another program point with the bytes it has put. -/
theorem Inv.moveWriter (h : p.Inv) {w : Writing} (hput : w.put = p.writing.put)
    (hroom : ∀ bytes writeCount, w = .transfer bytes writeCount →
      writeCount < bytes.length ∧ Ring.next bufferSize p.data.writeHead ≠ p.data.readHead) :
    ({ p with writing := w } : Pipe).Inv where
  readHead_lt := h.readHead_lt
  writeHead_lt := h.writeHead_lt
  stream := by
    show p.writes.flatMap writeBytes ++ w.put = p.returned ++ p.reading.got ++ p.queued
    rw [hput]
    exact h.stream
  nonempty := h.nonempty
  room := hroom

/-- A read that returns hands over the bytes it holds. -/
theorem Inv.endRead (h : p.Inv) {got : List UInt8} (length : Nat) (hgot : p.reading.got = got) :
    (p.endRead length got).Inv where
  readHead_lt := h.readHead_lt
  writeHead_lt := h.writeHead_lt
  stream := by
    show p.accepted
      = (p.reads ++ [(length, Except.ok got)]).flatMap readBytes ++ [] ++ p.queued
    rw [h.stream, hgot, List.flatMap_append, List.append_nil]
    show p.returned ++ got ++ p.queued = p.returned ++ (got ++ []) ++ p.queued
    rw [List.append_nil]
  nonempty := fun _ _ heq => nomatch heq
  room := h.room

/-- A write that returns has accepted the bytes it has put. -/
theorem Inv.endWrite (h : p.Inv) {bytes : List UInt8} {result : Except Errno Nat}
    (hput : writeBytes (bytes, result) = p.writing.put) : (p.endWrite bytes result).Inv where
  readHead_lt := h.readHead_lt
  writeHead_lt := h.writeHead_lt
  stream := by
    show (p.writes ++ [(bytes, result)]).flatMap writeBytes ++ []
      = p.returned ++ p.reading.got ++ p.queued
    rw [List.append_nil, List.flatMap_append, List.flatMap_singleton, hput]
    exact h.stream
  nonempty := h.nonempty
  room := fun _ _ heq => nomatch heq

/-- A read refused with an error returned no byte. -/
theorem Inv.refuseRead (h : p.Inv) (length : Nat) (err : Errno) :
    ({ p with reads := p.reads ++ [(length, .error err)] } : Pipe).Inv where
  readHead_lt := h.readHead_lt
  writeHead_lt := h.writeHead_lt
  stream := by
    show p.accepted = (p.reads ++ [(length, Except.error err)]).flatMap readBytes
      ++ p.reading.got ++ p.queued
    rw [List.flatMap_append, List.flatMap_singleton]
    show p.accepted = p.returned ++ [] ++ p.reading.got ++ p.queued
    rw [List.append_nil]
    exact h.stream
  nonempty := h.nonempty
  room := h.room

/-- A write refused with an error accepted no byte. -/
theorem Inv.refuseWrite (h : p.Inv) (bytes : List UInt8) (err : Errno) :
    ({ p with writes := p.writes ++ [(bytes, .error err)] } : Pipe).Inv where
  readHead_lt := h.readHead_lt
  writeHead_lt := h.writeHead_lt
  stream := by
    show (p.writes ++ [(bytes, Except.error err)]).flatMap writeBytes ++ p.writing.put
      = p.returned ++ p.reading.got ++ p.queued
    rw [List.flatMap_append, List.flatMap_singleton]
    show p.writes.flatMap writeBytes ++ [] ++ p.writing.put = _
    rw [List.append_nil]
    exact h.stream
  nonempty := h.nonempty
  room := h.room

/-- **The transfer of a byte to the reader.** -/
theorem Inv.takeByte (h : p.Inv) {length : Nat} {got : List UInt8}
    (hpc : p.reading = .transfer length got) :
    ({ p with
        reading := .loop length (got ++ [p.data.buffer p.data.readHead])
        data := { p.data with readHead := (p.data.readHead + 1) % bufferSize } } : Pipe).Inv where
  readHead_lt := Ring.next_lt h.readHead_lt
  writeHead_lt := h.writeHead_lt
  stream := by
    -- the byte under the read head is the first of what is queued
    have hpop := Ring.contents_pop h.readHead_lt h.writeHead_lt (h.nonempty _ _ hpc) p.data.buffer
    have hstream := h.stream
    unfold queued at hstream
    rw [hpc, hpop] at hstream
    show p.accepted = p.returned ++ (got ++ [p.data.buffer p.data.readHead])
      ++ Ring.contents bufferSize p.data.buffer (Ring.next bufferSize p.data.readHead)
          p.data.writeHead
    rw [hstream]
    simp [Reading.got]
  nonempty := fun _ _ heq => nomatch heq
  room := by
    intro bytes writeCount heq
    refine ⟨(h.room _ _ heq).1, ?_⟩
    exact Ring.next_ne_of_pop h.readHead_lt h.writeHead_lt (h.nonempty _ _ hpc)

/-- **The transfer of a byte from the writer.** -/
theorem Inv.putByte (h : p.Inv) {bytes : List UInt8} {writeCount : Nat}
    (hpc : p.writing = .transfer bytes writeCount) :
    ({ p with
        writing := .loop bytes (writeCount + 1)
        data := { p.data with
          buffer := Function.update p.data.buffer p.data.writeHead (bytes.getD writeCount 0)
          writeHead := (p.data.writeHead + 1) % bufferSize } } : Pipe).Inv where
  readHead_lt := h.readHead_lt
  writeHead_lt := Ring.next_lt h.writeHead_lt
  stream := by
    obtain ⟨hcount, hroom⟩ := h.room _ _ hpc
    -- the byte stored under the write head becomes the last of it
    have hpush := Ring.contents_push h.readHead_lt h.writeHead_lt hroom p.data.buffer
      (bytes.getD writeCount 0)
    have htake : bytes.take (writeCount + 1)
        = bytes.take writeCount ++ [bytes.getD writeCount 0] := by
      rw [List.take_add_one, List.getD_eq_getElem?_getD, List.getElem?_eq_getElem hcount]
      rfl
    have hstream := h.stream
    unfold accepted at hstream
    rw [hpc] at hstream
    show p.writes.flatMap writeBytes ++ bytes.take (writeCount + 1)
      = p.returned ++ p.reading.got
        ++ Ring.contents bufferSize
            (Function.update p.data.buffer p.data.writeHead (bytes.getD writeCount 0))
            p.data.readHead (Ring.next bufferSize p.data.writeHead)
    rw [hpush, htake, ← List.append_assoc, ← List.append_assoc]
    show p.writes.flatMap writeBytes ++ Writing.put (.transfer bytes writeCount) ++ _ = _
    rw [hstream]
    rfl
  nonempty := by
    -- the byte just stored is not taken back: the write head did not reach the read head
    intro _ _ _ heq
    exact (h.room _ _ hpc).2 heq.symm
  room := fun _ _ heq => nomatch heq

/-! ### What an event can do. -/

/-- **What an event can do to a pipe**, with the facts its tests have found. -/
inductive Moves (p : Pipe) : Event → Pipe → Prop
  /-- The reader goes on, or starts, with the bytes it holds. -/
  | goRead {e : Event} {r : Reading} : r.got = p.reading.got →
      (∀ length got, r = .transfer length got → p.data.readHead ≠ p.data.writeHead) →
      Moves p e { p with reading := r }
  | takeByte {length : Nat} {got : List UInt8} : p.reading = .transfer length got →
      Moves p .readStep { p with
        reading := .loop length (got ++ [p.data.buffer p.data.readHead])
        data := { p.data with readHead := (p.data.readHead + 1) % bufferSize } }
  /-- The read under way returns: with everything asked for, or because the write
  end is closed. -/
  | endRead {length : Nat} :
      p.data.writeClosed = true ∨ length ≤ p.reading.got.length →
      Moves p .readStep (p.endRead length p.reading.got)
  | refuseRead {length : Nat} :
      Moves p (.read true length) { p with reads := p.reads ++ [(length, .error .ENOTSUP)] }
  /-- The writer goes on, or starts on an open end. -/
  | goWrite {e : Event} {w : Writing} : w.put = p.writing.put →
      (∀ bytes writeCount, w = .transfer bytes writeCount →
        writeCount < bytes.length ∧ Ring.next bufferSize p.data.writeHead ≠ p.data.readHead) →
      (p.writing ≠ .idle ∨ p.data.writeClosed = false) →
      Moves p e { p with writing := w }
  | putByte {bytes : List UInt8} {writeCount : Nat} : p.writing = .transfer bytes writeCount →
      Moves p .writeStep { p with
        writing := .loop bytes (writeCount + 1)
        data := { p.data with
          buffer := Function.update p.data.buffer p.data.writeHead (bytes.getD writeCount 0)
          writeHead := (p.data.writeHead + 1) % bufferSize } }
  /-- The write under way returns. -/
  | endWrite {bytes : List UInt8} {result : Except Errno Nat} :
      writeBytes (bytes, result) = p.writing.put → p.writing ≠ .idle →
      Moves p .writeStep (p.endWrite bytes result)
  | refuseWrite {bytes : List UInt8} :
      Moves p (.write false bytes) { p with writes := p.writes ++ [(bytes, .error .ENOTSUP)] }
  | closeWrite : Moves p (.close true) { p with data := { p.data with writeClosed := true } }
  | closeRead : Moves p (.close false) { p with data := { p.data with readClosed := true } }

theorem moves_readStep (hst : p.readStep = some p') : Moves p .readStep p' := by
  unfold readStep at hst
  cases hpc : p.reading with
  | idle =>
      rw [hpc] at hst
      exact absurd hst (by simp)
  | entry length =>
      simp only [hpc] at hst
      have hgot : p.reading.got = [] := by rw [hpc]; rfl
      split at hst
      · rename_i hclosed
        injection hst with hst
        rw [← hst, ← hgot]
        exact .endRead (Or.inl hclosed)
      · injection hst with hst
        exact hst ▸ .goRead hgot.symm (fun _ _ heq => nomatch heq)
  | loop length got =>
      simp only [hpc] at hst
      have hgot : p.reading.got = got := by rw [hpc]; rfl
      split at hst
      · split at hst
        · injection hst with hst
          exact hst ▸ .goRead hgot.symm (fun _ _ heq => nomatch heq)
        · rename_i hne
          injection hst with hst
          exact hst ▸ .goRead hgot.symm (fun _ _ _ => hne)
      · rename_i hlen
        injection hst with hst
        rw [← hst, ← hgot]
        exact .endRead (Or.inr (hgot.symm ▸ Nat.not_lt.mp hlen))
  | empty length got =>
      simp only [hpc] at hst
      have hgot : p.reading.got = got := by rw [hpc]; rfl
      split at hst
      · rename_i hclosed
        injection hst with hst
        rw [← hst, ← hgot]
        exact .endRead (Or.inl hclosed)
      · injection hst with hst
        exact hst ▸ .goRead hgot.symm (fun _ _ heq => nomatch heq)
  | transfer length got =>
      simp only [hpc] at hst
      injection hst with hst
      exact hst ▸ .takeByte hpc

theorem moves_writeStep (hst : p.writeStep = some p') : Moves p .writeStep p' := by
  unfold writeStep at hst
  cases hpc : p.writing with
  | idle =>
      rw [hpc] at hst
      exact absurd hst (by simp)
  | entry bytes =>
      simp only [hpc] at hst
      have hbusy : p.writing ≠ .idle := by rw [hpc]; exact fun heq => nomatch heq
      split at hst
      · injection hst with hst
        exact hst ▸ .endWrite (by rw [hpc]; rfl) hbusy
      · injection hst with hst
        exact hst ▸ .goWrite (by rw [hpc]; rfl) (fun _ _ heq => nomatch heq) (Or.inl hbusy)
  | loop bytes writeCount =>
      simp only [hpc] at hst
      have hbusy : p.writing ≠ .idle := by rw [hpc]; exact fun heq => nomatch heq
      split at hst
      · rename_i hlt
        split at hst
        · -- a full ring: the loop tests again
          injection hst with hst
          rw [← hst]
          refine .goWrite (w := p.writing) rfl ?_ (Or.inl hbusy)
          rw [hpc]
          exact fun _ _ heq => nomatch heq
        · rename_i hroom
          injection hst with hst
          refine hst ▸ .goWrite (by rw [hpc]; rfl) ?_ (Or.inl hbusy)
          intro bytes' writeCount' heq
          injection heq with h1 h2
          subst h1 h2
          exact ⟨hlt, hroom⟩
      · injection hst with hst
        exact hst ▸ .endWrite (by rw [hpc]; rfl) hbusy
  | transfer bytes writeCount =>
      simp only [hpc] at hst
      injection hst with hst
      exact hst ▸ .putByte hpc

/-- **Every step is one of the moves.** -/
theorem step_moves {e : Event} (hst : Step p e p') : Moves p e p' := by
  unfold Step next at hst
  cases e with
  | read isWrite length =>
      cases isWrite with
      | true =>
          simp only at hst
          split at hst
          · exact absurd hst (by simp)
          · injection hst with hst
            exact hst ▸ .refuseRead
      | false =>
          simp only at hst
          split at hst
          · exact absurd hst (by simp)
          · rename_i hidle
            push Not at hidle
            injection hst with hst
            exact hst ▸ .goRead (by rw [hidle.2]; rfl) (fun _ _ heq => nomatch heq)
  | readStep => exact moves_readStep hst
  | write isWrite bytes =>
      cases isWrite with
      | true =>
          simp only at hst
          split at hst
          · exact absurd hst (by simp)
          · rename_i hidle
            push Not at hidle
            injection hst with hst
            exact hst ▸ .goWrite (by rw [hidle.2]; rfl) (fun _ _ heq => nomatch heq)
              (Or.inr (by simpa using hidle.1))
      | false =>
          simp only at hst
          split at hst
          · exact absurd hst (by simp)
          · injection hst with hst
            exact hst ▸ .refuseWrite
  | writeStep => exact moves_writeStep hst
  | close isWrite =>
      cases isWrite with
      | true =>
          injection hst with hst
          exact hst ▸ .closeWrite
      | false =>
          injection hst with hst
          exact hst ▸ .closeRead

/-- **Every event keeps the invariant.** -/
theorem inv_step {e : Event} (h : p.Inv) (hst : Step p e p') : p'.Inv := by
  cases step_moves hst with
  | goRead hgot hne => exact h.moveReader hgot hne
  | takeByte hpc => exact h.takeByte hpc
  | @endRead length _ => exact h.endRead length rfl
  | @refuseRead length => exact h.refuseRead length .ENOTSUP
  | goWrite hput hroom _ => exact h.moveWriter hput hroom
  | putByte hpc => exact h.putByte hpc
  | endWrite hput _ => exact h.endWrite hput
  | @refuseWrite bytes => exact h.refuseWrite bytes .ENOTSUP
  | closeWrite => exact { h with }
  | closeRead => exact { h with }

theorem run_inv {uninitialised : Nat → UInt8} {hist : List Event}
    (hrun : Run Step (makePair uninitialised) hist p) : p.Inv :=
  hrun.invariant Inv (inv_makePair uninitialised) (fun _ _ _ h hst => inv_step h hst)

end Steps

/-! ## §4. The end of the data. -/

/-- A step that ends a read of a positive length on the read end with 0 bytes. -/
def ReturnsZero (p p' : Pipe) : Prop :=
  Step p .readStep p' ∧ ∃ length, 0 < length ∧ p'.reads = p.reads ++ [(length, .ok [])]

/-- **The end of the data**: the write end is closed and every byte ever written
has been returned by a read. -/
def AtEnd (p : Pipe) : Prop := p.data.writeClosed = true ∧ p.accepted = p.returned

section EndOfFile

variable {p p' : Pipe}

/-- A read that answers 0 bytes saw the write end closed and holds no byte. -/
theorem ReturnsZero.ended (h : ReturnsZero p p') :
    ∃ length, p' = p.endRead length [] ∧ p.reading.got = [] ∧ p.data.writeClosed = true := by
  obtain ⟨hst, length, hpos, hreads⟩ := h
  cases step_moves hst with
  | goRead _ _ => exact absurd hreads (by simp)
  | takeByte _ => exact absurd hreads (by simp)
  | goWrite _ _ _ => exact absurd hreads (by simp)
  | @endRead length' hwhy =>
      have hlog : p.reads ++ [(length', Except.ok p.reading.got)]
          = p.reads ++ [(length, Except.ok [])] := hreads
      -- the entry the step appended is the one the claim is about
      have hlast := List.append_cancel_left hlog
      injection hlast with hpair _
      injection hpair with hlen hres
      injection hres with hgot
      subst hlen
      refine ⟨length', by rw [hgot], hgot, ?_⟩
      cases hwhy with
      | inl hclosed => exact hclosed
      | inr hle =>
          rw [hgot] at hle
          exact absurd hle (by simp; omega)

/-- In a state that satisfies the invariant, a read that answers 0 bytes is at
the end of the data exactly when the ring is empty. -/
theorem ReturnsZero.atEnd_iff (h : p.Inv) (hzero : ReturnsZero p p') :
    p'.AtEnd ↔ p.data.readHead = p.data.writeHead := by
  obtain ⟨length, rfl, hgot, hclosed⟩ := hzero.ended
  have hstream := h.stream
  rw [hgot, List.append_nil] at hstream
  have hreturned : (p.endRead length []).returned = p.returned := by
    show (p.reads ++ [(length, Except.ok [])]).flatMap readBytes = _
    rw [List.flatMap_append, List.flatMap_singleton]
    exact List.append_nil _
  -- the ring is empty exactly when the heads are equal
  have hqueued : p.queued = [] ↔ p.data.readHead = p.data.writeHead :=
    Ring.contents_eq_nil_iff h.readHead_lt p.data.buffer
  rw [← hqueued]
  unfold AtEnd
  rw [hreturned]
  show p.data.writeClosed = true ∧ p.accepted = p.returned ↔ _
  rw [hstream]
  constructor
  · intro hend
    exact List.self_eq_append_right.mp hend.2.symm
  · intro hnil
    exact ⟨hclosed, by rw [hnil, List.append_nil]⟩

/-- A step at which the write end, if it is closed, is closed DRAINED: no write
under way and nothing left in the ring. -/
def DrainedStep (p : Pipe) (e : Event) (p' : Pipe) : Prop :=
  Step p e p' ∧ (e = .close true → p.writing = .idle ∧ p.data.readHead = p.data.writeHead)

/-- Once closed drained, the pipe stays drained. -/
def Drained (p : Pipe) : Prop :=
  p.data.writeClosed = true → p.writing = .idle ∧ p.data.readHead = p.data.writeHead

/-- A drained pipe with a write under way is open. -/
theorem Drained.open_of_busy (hd : p.Drained) (hbusy : p.writing ≠ .idle) :
    p.data.writeClosed = false := by
  by_contra hne
  exact hbusy (hd (by simpa using hne)).1

theorem drained_step {e : Event} (h : p.Inv) (hd : p.Drained) (hst : DrainedStep p e p') :
    p'.Drained := by
  obtain ⟨hst, hclose⟩ := hst
  cases step_moves hst with
  | goRead _ _ => exact hd
  | takeByte hpc =>
      -- a transfer would need a byte in a ring that closed empty
      intro hclosed
      exact absurd (hd hclosed).2 (h.nonempty _ _ hpc)
  | endRead _ => exact hd
  | refuseRead => exact hd
  | goWrite _ _ hopen =>
      -- a write is under way or starts: the write end is not closed
      have hopen : p.data.writeClosed = false := hopen.elim hd.open_of_busy id
      intro hclosed
      exact absurd (hopen.symm.trans hclosed) (by simp)
  | putByte hpc =>
      have hopen := hd.open_of_busy (by rw [hpc]; exact fun heq => nomatch heq)
      intro hclosed
      exact absurd (hopen.symm.trans hclosed) (by simp)
  | endWrite _ hbusy =>
      intro hclosed
      exact absurd ((hd.open_of_busy hbusy).symm.trans hclosed) (by simp)
  | refuseWrite => exact hd
  | closeWrite => exact fun _ => hclose rfl
  | closeRead => exact hd

end EndOfFile

end Pipe

open Pipe

/-- **Pipe ordering.**  In every run, whatever the lengths, the interleaving and
the moments at which the ends are closed, the bytes returned by reads are a
prefix of the bytes accepted by writes; what lies between is what the read
under way holds and then what the ring holds. -/
theorem pipe_delivers_in_order (uninitialised : Nat → UInt8) {hist : List Event} {p : Pipe}
    (hrun : Run Step (makePair uninitialised) hist p) :
    p.returned <+: p.accepted
      ∧ p.accepted = p.returned ++ p.reading.got ++ p.queued
      ∧ p.data.readHead < bufferSize ∧ p.data.writeHead < bufferSize := by
  have hinv := run_inv hrun
  refine ⟨?_, hinv.stream, hinv.readHead_lt, hinv.writeHead_lt⟩
  rw [hinv.stream, List.append_assoc]
  exact List.prefix_append _ _

/-- Two bytes written, one of them read back. -/
theorem pipe_delivers_in_order_two :
    ∃ p, Run Step (makePair (fun _ => 0))
        [.readStep, .readStep, .readStep, .readStep, .read false 1,
          .writeStep, .writeStep, .writeStep, .writeStep, .writeStep, .writeStep,
          .write true [7, 8]] p
      ∧ p.returned = [7] ∧ p.accepted = [7, 8] ∧ p.returned <+: p.accepted := by
  have hex : ∃ p, Run Step (makePair (fun _ => 0))
        [.readStep, .readStep, .readStep, .readStep, .read false 1,
          .writeStep, .writeStep, .writeStep, .writeStep, .writeStep, .writeStep,
          .write true [7, 8]] p
      ∧ p.returned = [7] ∧ p.accepted = [7, 8] :=
    ⟨_, Run.of_foldlM (f := next) [.write true [7, 8],
        .writeStep, .writeStep, .writeStep, .writeStep, .writeStep, .writeStep,
        .read false 1, .readStep, .readStep, .readStep, .readStep] Run.init rfl, rfl, rfl⟩
  obtain ⟨p, hrun, hret, hacc⟩ := hex
  exact ⟨p, hrun, hret, hacc, (pipe_delivers_in_order _ hrun).1⟩

/-- **Pipe end-of-file.**  In every run, a read of a positive length that
answers 0 bytes has reached the end of the data exactly when the ring was empty
at the step that ended it; in a run that closes the write end only when it is
drained this is always so. -/
theorem pipe_eof_iff (uninitialised : Nat → UInt8) {hist : List Event} {p p' : Pipe}
    (hrun : Run Step (makePair uninitialised) hist p) (hzero : ReturnsZero p p') :
    (p'.AtEnd ↔ p.data.readHead = p.data.writeHead)
      ∧ (Run DrainedStep (makePair uninitialised) hist p → p'.AtEnd) := by
  have hiff := hzero.atEnd_iff (run_inv hrun)
  refine ⟨hiff, fun hdrained => hiff.mpr ?_⟩
  have hboth : p.Inv ∧ p.Drained := by
    refine hdrained.invariant (fun p => p.Inv ∧ p.Drained) ?_ ?_
    · exact ⟨inv_makePair uninitialised, fun h => nomatch h⟩
    · intro s e s' h hst
      exact ⟨inv_step h.1 hst.1, drained_step h.1 h.2 hst⟩
  obtain ⟨_, _, _, hclosed⟩ := hzero.ended
  exact (hboth.2 hclosed).2

/-- A byte written and read back, the write end closed, and one more read. -/
theorem pipe_eof_iff_drained :
    ∃ p p', Run Step (makePair (fun _ => 0))
        [.read false 1, .close true, .readStep, .readStep, .readStep, .readStep, .read false 1,
          .writeStep, .writeStep, .writeStep, .writeStep, .write true [7]] p
      ∧ ReturnsZero p p' ∧ p'.AtEnd := by
  have hex : ∃ p p', Run Step (makePair (fun _ => 0))
        [.read false 1, .close true, .readStep, .readStep, .readStep, .readStep, .read false 1,
          .writeStep, .writeStep, .writeStep, .writeStep, .write true [7]] p
      ∧ Step p .readStep p' ∧ p'.reads = p.reads ++ [(1, .ok [])]
      ∧ p.data.readHead = p.data.writeHead :=
    ⟨_, _, Run.of_foldlM (f := next) [.write true [7],
        .writeStep, .writeStep, .writeStep, .writeStep, .read false 1,
        .readStep, .readStep, .readStep, .readStep, .close true, .read false 1] Run.init rfl,
      rfl, rfl, rfl⟩
  obtain ⟨p, p', hrun, hst, hreads, hheads⟩ := hex
  have hzero : ReturnsZero p p' := ⟨hst, 1, by omega, hreads⟩
  exact ⟨p, p', hrun, hzero, (pipe_eof_iff _ hrun hzero).1.mpr hheads⟩

/-- **A written byte that no read returns**: written, the write end closed, and
the next read of one byte answers 0 with the byte still in the ring. -/
theorem read_after_close_loses_byte :
    ¬ ∀ (hist : List Event) (p p' : Pipe), Run Step (makePair (fun _ => 0)) hist p →
        ReturnsZero p p' → p'.AtEnd := by
  intro hclaim
  have hex : ∃ p p', Run Step (makePair (fun _ => 0))
        [.read false 1, .close true,
          .writeStep, .writeStep, .writeStep, .writeStep, .write true [7]] p
      ∧ Step p .readStep p' ∧ p'.reads = p.reads ++ [(1, .ok [])]
      ∧ p'.accepted = [7] ∧ p'.returned = [] :=
    ⟨_, _, Run.of_foldlM (f := next) [.write true [7],
        .writeStep, .writeStep, .writeStep, .writeStep, .close true, .read false 1] Run.init rfl,
      rfl, rfl, rfl, rfl⟩
  obtain ⟨p, p', hrun, hst, hreads, hacc, hret⟩ := hex
  have hend := hclaim _ p p' hrun ⟨hst, 1, by omega, hreads⟩
  rw [AtEnd, hacc, hret] at hend
  exact absurd hend.2 (by simp)

end MierOS.Streams
