/-
  MierOS.Ext2.Seek
  **SEEKING IN A FILE OF EXT2**: `seek` of `rw.cpp`, and reads behind it.

  A read takes the bytes up to the next block boundary from the buffer, so `seek` loads
  the block it arrives in, unless it thinks that the buffer has it already.  It compares
  the positions shifted by `block_size + 10` instead of `blocks_size + 10`; the processor
  takes that count modulo 64, which leaves 10 for every block size.  And from a block
  boundary, where the buffer holds no block, the comparison finds no change.

  Main results: `Held`, `Held.seek_held`, `seek_keeps_readable`.
-/
import MierOS.Ext2.Rw
import MierOS.Lib.Run

namespace MierOS.Ext2

open Lib

/-! ## §1. The code. -/

/-- `SEEK_MODE_BEG`, `SEEK_MODE_CUR` and `SEEK_MODE_END`. -/
def seekModeBeg : Int := 0
def seekModeCur : Int := 1
def seekModeEnd : Int := 2

section Code

variable (mi : MountInfo) (inode : Inode) (blockRead : BlockRead)

/-- The position that `seek` moves to; an unknown mode moves nowhere. -/
def seekPosition (data : StreamData) (position : BitVec 64) (mode : Int) : Nat :=
  if mode = seekModeCur then (data.position + position.toNat) % 2 ^ 64
  else if mode = seekModeBeg then position.toNat
  else if mode = seekModeEnd then (inode.size.toNat + position.toNat) % 2 ^ 64
  else data.position

/-- `position >> (mi.block_size + 10)`, with the shift count as the processor takes it. -/
def seekShift (position : Nat) : Nat := position >>> ((mi.blockSize + 10) % 64)

/-- `seek(minor, filestream, position, mode)`. -/
def seek (data : StreamData) (position : BitVec 64) (mode : Int) :
    Except Errno Nat × StreamData :=
  let oldPosition := data.position
  let data := { data with position := seekPosition inode data position mode }
  if data.position &&& (mi.blockSize - 1) ≠ 0
      ∧ seekShift mi oldPosition ≠ seekShift mi data.position then
    let block := getInodeBlock mi inode (data.position >>> (mi.blocksSize + 10) % 2 ^ 32)
    match blockRead (mi.getLba block) (mi.blockSize >>> 9) with
    | .error errno => (.error errno, data)
    | .ok bytes =>
        (.ok oldPosition, { data with buffer := overwrite data.buffer mi.blockSize bytes })
  else (.ok oldPosition, data)

/-- What is done with a stream; a read is into a buffer that holds `user`. -/
inductive StreamCall where
  | read (user : List Byte) (length : BitVec 64)
  | seek (position : BitVec 64) (mode : Int)
  deriving Repr, DecidableEq

/-- The stream behind a call. -/
def StreamCall.exec (data : StreamData) : StreamCall → Option StreamData
  | .read user length =>
      (Ext2.read mi inode blockRead user data length.toNat).map fun result => result.2.2
  | .seek position mode => some (Ext2.seek mi inode blockRead data position mode).2

end Code

/-! ## §2. Streams that can be read. -/

section Invariant

variable (mi : MountInfo) (inode : Inode) (device : Nat → Byte)

/-- At a position inside a block of the file, that block is in the buffer. -/
def Readable (data : StreamData) : Prop :=
  data.position % mi.blockSize ≠ 0 → data.position < inode.size.toNat →
    data.buffer
      = fileBytes mi inode device (data.position / mi.blockSize * mi.blockSize) mi.blockSize

/-- **The invariant**: so it is also behind the end of the file, in its last block. -/
structure Held (data : StreamData) : Prop where
  lt : data.position < 2 ^ 64
  holds : data.position % mi.blockSize ≠ 0 →
    data.position / mi.blockSize * mi.blockSize < inode.size.toNat →
      data.buffer
        = fileBytes mi inode device (data.position / mi.blockSize * mi.blockSize) mi.blockSize

theorem Held.readable {mi : MountInfo} {inode : Inode} {device : Nat → Byte} {data : StreamData}
    (h : Held mi inode device data) : Readable mi inode device data := fun hinside hlt =>
  h.holds hinside (Nat.lt_of_le_of_lt (Nat.div_mul_le_self _ _) hlt)

/-- **What a call is to do**: a seek leaves a readable stream, and a read at or behind the
end of the file returns 0. -/
def StreamCall.Serves (blockRead : BlockRead) (data : StreamData) : StreamCall → Prop
  | .read user length => inode.size.toNat ≤ data.position →
      ∃ out data', Ext2.read mi inode blockRead user data length.toNat = some (.ok 0, out, data')
  | .seek position mode =>
      Readable mi inode device (Ext2.seek mi inode blockRead data position mode).2

/-- **The calls that do it**: reads at most at the end of the file, or of nothing; and
seeks that do not go from a block boundary in the file into the KiB behind it, unless
the buffer has that block. -/
def StreamCall.Safe (data : StreamData) : StreamCall → Prop
  | .read _ length => data.position ≤ inode.size.toNat ∨ length = 0
  | .seek position mode =>
      data.position % mi.blockSize = 0 → data.position < inode.size.toNat →
        data.position < seekPosition inode data position mode →
        seekPosition inode data position mode / 1024 = data.position / 1024 →
          data.buffer = fileBytes mi inode device data.position mi.blockSize

end Invariant

section Seek

variable {mi : MountInfo} {inode : Inode} {device : Nat → Byte} {blockRead : BlockRead}
  {data : StreamData} {position : BitVec 64} {mode : Int}

theorem blockSize_kib (mi : MountInfo) : mi.blockSize = 1024 * 2 ^ mi.blocksSize := by
  rw [blockSize_eq, Nat.pow_add, Nat.mul_comm]

/-- The positions are compared by the KiB, whatever the block size. -/
theorem seekShift_eq (mi : MountInfo) (n : Nat) : seekShift mi n = n / 1024 := by
  unfold seekShift
  have hcount : (mi.blockSize + 10) % 64 = 10 := by
    rw [blockSize_kib, show 1024 * 2 ^ mi.blocksSize = 64 * (16 * 2 ^ mi.blocksSize) by omega,
      Nat.mul_add_mod]
  rw [hcount, Nat.shiftRight_eq_div_pow]

/-- Positions in one KiB are in one block. -/
theorem div_blockSize_congr (mi : MountInfo) {p q : Nat} (h : p / 1024 = q / 1024) :
    p / mi.blockSize = q / mi.blockSize := by
  rw [blockSize_kib, ← Nat.div_div_eq_div_mul, ← Nat.div_div_eq_div_mul, h]

theorem seekPosition_lt (inode : Inode) (position : BitVec 64) (mode : Int)
    (hlt : data.position < 2 ^ 64) :
    seekPosition inode data position mode < 2 ^ 64 := by
  unfold seekPosition
  have hpos : 0 < 2 ^ 64 := by decide
  split
  · exact Nat.mod_lt _ hpos
  · split
    · exact position.isLt
    · split
      · exact Nat.mod_lt _ hpos
      · exact hlt

/-- A seek that stays in its KiB, or arrives at a boundary, leaves the buffer alone. -/
theorem seek_stays (h : seekPosition inode data position mode % mi.blockSize = 0
      ∨ data.position / 1024 = seekPosition inode data position mode / 1024) :
    seek mi inode blockRead data position mode
      = (.ok data.position, { data with position := seekPosition inode data position mode }) := by
  unfold seek
  dsimp only
  rw [mask_eq_mod, seekShift_eq, seekShift_eq]
  refine if_neg fun ⟨hinside, hmoved⟩ => ?_
  exact h.elim hinside hmoved

/-- A seek into another KiB reads the block there. -/
theorem seek_loads (hfills : ∀ lba count, blockRead lba count
      = .ok ((List.range (count * 512)).map fun i => device (lba * 512 + i)))
    (hinside : seekPosition inode data position mode % mi.blockSize ≠ 0)
    (hmoved : data.position / 1024 ≠ seekPosition inode data position mode / 1024) :
    ∃ bytes, blockRead (mi.getLba (getInodeBlock mi inode
          (seekPosition inode data position mode / mi.blockSize % 2 ^ 32)))
        (mi.blockSize / 512) = .ok bytes
      ∧ seek mi inode blockRead data position mode
        = (.ok data.position, ⟨seekPosition inode data position mode, bytes⟩) := by
  refine ⟨_, hfills _ _, ?_⟩
  have hlen : ((List.range (mi.blockSize / 512 * 512)).map fun i => device (mi.getLba
      (getInodeBlock mi inode (seekPosition inode data position mode / mi.blockSize % 2 ^ 32)) * 512
        + i)).length = mi.blockSize := by
    rw [List.length_map, List.length_range, blockSize_sectors]
  unfold seek
  dsimp only
  rw [mask_eq_mod, seekShift_eq, seekShift_eq, if_pos ⟨hinside, hmoved⟩, shift_eq_div,
    show mi.blockSize >>> 9 = mi.blockSize / 512 from Nat.shiftRight_eq_div_pow _ 9, hfills]
  dsimp only
  rw [overwrite_full hlen]

/-- **One seek** keeps the invariant. -/
theorem Held.seek_held (hdev : DeviceOk mi inode device blockRead) (h : Held mi inode device data)
    (hsafe : (StreamCall.seek position mode).Safe mi inode device data) :
    Held mi inode device (seek mi inode blockRead data position mode).2 := by
  have hlt := seekPosition_lt inode position mode h.lt
  have hbs := blockSize_pos mi
  generalize hq : seekPosition inode data position mode = q at hlt
  by_cases hstays : q % mi.blockSize = 0 ∨ data.position / 1024 = q / 1024
  · rw [seek_stays (by rw [hq]; exact hstays), hq]
    refine ⟨hlt, fun hinside hstart => ?_⟩
    have hinside : q % mi.blockSize ≠ 0 := hinside
    have hstart : q / mi.blockSize * mi.blockSize < inode.size.toNat := hstart
    show data.buffer = fileBytes mi inode device (q / mi.blockSize * mi.blockSize) mi.blockSize
    have hkib := hstays.resolve_left hinside
    -- the seek stays in its KiB, and so in its block
    have hblock := div_blockSize_congr mi hkib
    rw [← hblock] at hstart ⊢
    by_cases haligned : data.position % mi.blockSize = 0
    · -- from the boundary: the old position is the start of the block
      have hp : data.position / mi.blockSize * mi.blockSize = data.position :=
        Nat.div_mul_cancel (Nat.dvd_of_mod_eq_zero haligned)
      have hdiv := Nat.div_add_mod' q mi.blockSize
      rw [← hblock, hp] at hdiv
      rw [hp] at hstart ⊢
      exact hsafe haligned hstart (by rw [hq]; omega) (by rw [hq]; exact hkib.symm)
    · exact h.holds haligned hstart
  · obtain ⟨hinside, hmoved⟩ := not_or.mp hstays
    rw [← hq] at hinside hmoved
    obtain ⟨bytes, hbytes, hseek⟩ := seek_loads hdev.fills hinside hmoved
    rw [hseek, hq]
    refine ⟨hlt, fun _ hstart => ?_⟩
    have hstart : q / mi.blockSize * mi.blockSize < inode.size.toNat := hstart
    show bytes = fileBytes mi inode device (q / mi.blockSize * mi.blockSize) mi.blockSize
    -- a block that starts in the file is one whose address is exact
    have h32 := inode.size.isLt
    have hsmall : q / mi.blockSize < 2 ^ 32 :=
      Nat.lt_of_le_of_lt (Nat.le_mul_of_pos_right _ hbs) (by omega)
    have hread := blockRead_eq hdev (c := 1) hstart fun j hj => by
      rw [Nat.lt_one_iff.mp hj]
      rfl
    rw [Nat.mul_one, Nat.one_mul] at hread
    rw [hq, Nat.mod_eq_of_lt hsmall, hread] at hbytes
    exact (Except.ok.inj hbytes).symm

/-- **A seek that arrives in the file** leaves it readable only if it is safe. -/
theorem seek_safe_of_readable
    (hinside : seekPosition inode data position mode < inode.size.toNat)
    (hread : Readable mi inode device (seek mi inode blockRead data position mode).2) :
    (StreamCall.seek position mode).Safe mi inode device data := by
  intro haligned _ hforward hkib
  rw [seek_stays (Or.inr hkib.symm)] at hread
  have hblock := div_blockSize_congr mi hkib
  have hp : data.position / mi.blockSize * mi.blockSize = data.position :=
    Nat.div_mul_cancel (Nat.dvd_of_mod_eq_zero haligned)
  have hdiv := Nat.div_add_mod' (seekPosition inode data position mode) mi.blockSize
  rw [hblock, hp] at hdiv
  -- the seek did not read, so the buffer had the block before
  have hbuffer := hread (show seekPosition inode data position mode % mi.blockSize ≠ 0 by omega)
    hinside
  rw [show (seekPosition inode data position mode) / mi.blockSize = _ from hblock, hp] at hbuffer
  exact hbuffer

/-! ## §3. Reads at and behind the end. -/

/-- A read in the file, or at its end. -/
theorem Held.bufferOk (h : Held mi inode device data) (hend : data.position ≤ inode.size.toNat) :
    BufferOk mi inode device data := by
  refine ⟨hend, fun hinside => h.holds hinside ?_⟩
  have hdiv := Nat.div_add_mod' data.position mi.blockSize
  omega

theorem BufferOk.held (h : BufferOk mi inode device data) : Held mi inode device data := by
  have h32 := inode.size.isLt
  have hend := h.inside
  exact ⟨by omega, fun hinside _ => h.holds hinside⟩

theorem read_zero (user : List Byte) (data : StreamData) :
    read mi inode blockRead user data 0 = some (.ok 0, [], data) := by
  have hnone : ∀ n : Nat, (if n > 0 then 0 else n) = 0 := by
    intro n
    split <;> omega
  unfold read readHead
  simp [hnone]

/-- The blocks of a request, at any position: one at least, and no more than asked for. -/
theorem countBlocks_bounds (block startBlock left blkCount : Nat) :
    blkCount ≤ countBlocks mi inode block startBlock left blkCount
      ∧ countBlocks mi inode block startBlock left blkCount ≤ blkCount + left := by
  induction left generalizing blkCount with
  | zero => exact ⟨Nat.le_refl _, Nat.le_refl _⟩
  | succ left ih =>
      unfold countBlocks
      have := ih (blkCount + 1)
      split <;> omega

theorem countBlocks_pos (mi : MountInfo) (inode : Inode) {startBlock : Nat} (left : Nat)
    (hsmall : startBlock < 2 ^ 32) :
    1 ≤ countBlocks mi inode (getInodeBlock mi inode startBlock) startBlock (left + 1) 0 := by
  unfold countBlocks
  rw [Nat.add_zero, Nat.mod_eq_of_lt hsmall, Nat.add_zero, if_pos rfl]
  exact (countBlocks_bounds _ _ _ _).1

/-- On a device that answers, the loop over the whole blocks ends without an error. -/
theorem readBlocks_returns (mi : MountInfo) (inode : Inode) (hfills : ∀ lba count, blockRead lba count
      = .ok ((List.range (count * 512)).map fun i => device (lba * 512 + i)))
    (user : List Byte) (fuel left : Nat) (p : Progress) (hfuel : left ≤ fuel) :
    ∃ p', readBlocks mi inode blockRead user fuel left p = some (none, p') := by
  induction fuel generalizing left p with
  | zero =>
      rw [Nat.le_zero.mp hfuel]
      exact ⟨p, rfl⟩
  | succ fuel ih =>
      cases left with
      | zero => exact ⟨p, rfl⟩
      | succ left =>
          have hpos := countBlocks_pos mi inode left
            (Nat.mod_lt (p.data.position >>> (mi.blocksSize + 10)) (show 0 < 2 ^ 32 by decide))
          unfold readBlocks
          dsimp only
          rw [hfills]
          exact ih _ _ (by omega)

/-- **What a read returns** on such a device, wherever it starts. -/
theorem read_returns (mi : MountInfo) (inode : Inode) (hfills : ∀ lba count, blockRead lba count
      = .ok ((List.range (count * 512)).map fun i => device (lba * 512 + i)))
    (user : List Byte) (data : StreamData) (length : Nat) :
    ∃ out data', read mi inode blockRead user data length
      = some (.ok (min length ((inode.size.toNat + (2 ^ 64 - data.position)) % 2 ^ 64)),
          out, data') := by
  have hmin : ∀ rest : Nat, (if rest < length then rest else length) = min length rest := by
    intro rest
    split <;> omega
  unfold read
  dsimp only
  rw [hmin]
  generalize min length _ = n
  -- the head does not fail, whatever it finds
  generalize readHead mi data n = p
  by_cases hdone : p.leftToRead = 0
  · rw [if_pos hdone]
    exact ⟨_, _, rfl⟩
  · obtain ⟨p', hloop⟩ := readBlocks_returns mi inode hfills user _
      (p.leftToRead >>> (mi.blocksSize + 10)) p (Nat.le_refl _)
    rw [if_neg hdone, hloop]
    dsimp only
    by_cases hnone : p'.leftToRead = 0
    · rw [if_pos hnone]
      exact ⟨_, _, rfl⟩
    · rw [if_neg hnone]
      unfold readTail
      dsimp only
      rw [hfills]
      exact ⟨_, _, rfl⟩

/-- **A read at or behind the end** returns 0 at the end, and of nothing. -/
theorem read_end_iff (hdev : DeviceOk mi inode device blockRead) (h : Held mi inode device data)
    (user : List Byte) (length : BitVec 64) :
    (StreamCall.read user length).Serves mi inode device blockRead data
      ↔ (StreamCall.read user length).Safe mi inode device data := by
  have hlt := h.lt
  have h32 := inode.size.isLt
  obtain ⟨out, data', hread⟩ := read_returns mi inode hdev.fills user data length.toNat
  constructor
  · intro hserves
    by_cases hend : data.position ≤ inode.size.toNat
    · exact Or.inl hend
    · -- the rest of the file is computed modulo `2 ^ 64`, and is not 0
      obtain ⟨out', data'', hzero⟩ := hserves (by omega)
      rw [hread, Option.some.injEq, Prod.mk.injEq, Except.ok.injEq] at hzero
      have hmin := hzero.1
      rw [Nat.mod_eq_of_lt (by omega)] at hmin
      exact Or.inr (BitVec.eq_of_toNat_eq (show length.toNat = 0 by omega))
  · intro hsafe hbehind
    refine ⟨out, data', ?_⟩
    rw [hread]
    rcases hsafe with hend | hzero
    · rw [show inode.size.toNat + (2 ^ 64 - data.position) = 2 ^ 64 by omega, Nat.mod_self,
        Nat.min_zero]
    · rw [hzero]
      simp

end Seek

/-! ## §4. Runs. -/

section Run

variable {mi : MountInfo} {inode : Inode} {device : Nat → Byte} {blockRead : BlockRead}
  {data : StreamData} {buffer : List Byte} {calls : List StreamCall}

/-- A call leads from a stream to a stream. -/
def StreamStep (mi : MountInfo) (inode : Inode) (blockRead : BlockRead) (data : StreamData)
    (call : StreamCall) (data' : StreamData) : Prop := call.exec mi inode blockRead data = some data'

/-- Every call is safe for the stream it is made on. -/
def SafeStreamCall (mi : MountInfo) (inode : Inode) (device : Nat → Byte)
    (_ : List StreamCall) (data : StreamData) (call : StreamCall) : Prop :=
  call.Safe mi inode device data

/-- The call is a read, or a seek to a position in the file. -/
def StreamCall.ArrivesInside (inode : Inode) (data : StreamData) : StreamCall → Prop
  | .read .. => True
  | .seek position mode => seekPosition inode data position mode < inode.size.toNat

/-- **One safe call** keeps the invariant. -/
theorem Held.step (hdev : DeviceOk mi inode device blockRead) (h : Held mi inode device data)
    {call : StreamCall} (hsafe : call.Safe mi inode device data) {data' : StreamData}
    (hstep : StreamStep mi inode blockRead data call data') : Held mi inode device data' := by
  cases call with
  | seek position mode =>
      obtain rfl := Option.some.inj hstep
      exact h.seek_held hdev hsafe
  | read user length =>
      have hstep : (read mi inode blockRead user data length.toNat).map _ = some data' := hstep
      rcases hsafe with hend | hzero
      · obtain ⟨data'', hread, -, hok⟩ := read_eq hdev (h.bufferOk hend) user length.toNat
        rw [hread] at hstep
        exact Option.some.inj hstep ▸ hok.held
      · rw [hzero, show (0 : BitVec 64).toNat = 0 from rfl, read_zero] at hstep
        exact Option.some.inj hstep ▸ h

/-- `open`: the position is 0, and the buffer holds what its pages held. -/
theorem held_open (buffer : List Byte) : Held mi inode device ⟨0, buffer⟩ :=
  ⟨show 0 < 2 ^ 64 by decide, fun h => absurd (Nat.zero_mod _) h⟩

theorem held_run (hdev : DeviceOk mi inode device blockRead)
    (hrun : GuardedRun (StreamStep mi inode blockRead) (SafeStreamCall mi inode device)
      ⟨0, buffer⟩ calls data) : Held mi inode device data := by
  refine hrun.historyInvariant (fun _ data => Held mi inode device data) (held_open buffer) ?_
  exact fun _ _ _ _ h hsafe hstep => Held.step hdev h hsafe hstep

end Run

/-- **THE STREAM STAYS READABLE.**  In every run of reads and seeks from `open` whose
calls are safe, the buffer holds the block of the position; the next call does what it
is to do if it is safe; and if it does, and arrives in the file, it was safe. -/
theorem seek_keeps_readable {mi : MountInfo} {inode : Inode} {device : Nat → Byte}
    {blockRead : BlockRead} (hdev : DeviceOk mi inode device blockRead) {buffer : List Byte}
    {calls : List StreamCall} {data : StreamData}
    (hrun : GuardedRun (StreamStep mi inode blockRead) (SafeStreamCall mi inode device)
      ⟨0, buffer⟩ calls data) :
    Readable mi inode device data ∧ ∀ call : StreamCall,
      (call.Safe mi inode device data → call.Serves mi inode device blockRead data)
        ∧ (call.ArrivesInside inode data → call.Serves mi inode device blockRead data →
            call.Safe mi inode device data) := by
  have hheld := held_run hdev hrun
  refine ⟨hheld.readable, fun call => ?_⟩
  cases call with
  | read user length =>
      have hiff := read_end_iff hdev hheld user length
      exact ⟨hiff.mpr, fun _ => hiff.mp⟩
  | seek position mode =>
      exact ⟨fun hsafe => (hheld.seek_held hdev hsafe).readable,
        fun hinside hread => seek_safe_of_readable hinside hread⟩

/-- From the start of the file, over the second block to the middle of the third. -/
theorem seek_keeps_readable_small :
    (StreamCall.seek 2500 seekModeBeg).Serves smallMount smallInode smallDevice smallRead
      ⟨0, []⟩ := by
  refine ((seek_keeps_readable smallDevice_ok GuardedRun.init).2 _).1 fun _ _ _ hkib => ?_
  exact absurd hkib (by decide)

/-- A seek from the start of the file to its byte 5 reads nothing, and a read behind the
end of the file returns what it is asked for. -/
theorem seek_within_first_block_stale :
    (¬ ∀ (mi : MountInfo) (inode : Inode) (device : Nat → Byte) (blockRead : BlockRead),
        DeviceOk mi inode device blockRead → ∀ (buffer : List Byte) (calls : List StreamCall)
          (data : StreamData), Run (StreamStep mi inode blockRead) ⟨0, buffer⟩ calls data →
          ∀ position mode, (StreamCall.seek position mode).Serves mi inode device blockRead data)
      ∧ ¬ ∀ (mi : MountInfo) (inode : Inode) (device : Nat → Byte) (blockRead : BlockRead),
        DeviceOk mi inode device blockRead → ∀ (buffer : List Byte) (calls : List StreamCall)
          (data : StreamData), Run (StreamStep mi inode blockRead) ⟨0, buffer⟩ calls data →
          ∀ user length, (StreamCall.read user length).Serves mi inode device blockRead data := by
  constructor
  · intro h
    have hread := h smallMount smallInode smallDevice smallRead smallDevice_ok
      (List.replicate 1024 0) [] _ Run.init 5 seekModeBeg
    have hsafe := seek_safe_of_readable (by decide) hread
    have hbuffer := hsafe (by decide) (by decide) (by decide) (by decide)
    -- byte 1 of the file is 1
    have hbyte : (List.replicate 1024 (0 : Byte))[1]?
        = (fileBytes smallMount smallInode smallDevice 0 1024)[1]? := congrArg (·[1]?) hbuffer
    unfold fileBytes at hbyte
    rw [List.getElem?_replicate, List.getElem?_map, List.getElem?_range (by decide)] at hbyte
    exact absurd hbyte (by decide)
  · intro h
    have hseek : StreamStep smallMount smallInode smallRead ⟨0, []⟩ (.seek 4096 seekModeBeg)
        ⟨4096, []⟩ := by
      show some (seek smallMount smallInode smallRead ⟨0, []⟩ 4096 seekModeBeg).2 = _
      rw [seek_stays (Or.inl (by decide))]
      rfl
    have hserves := h smallMount smallInode smallDevice smallRead smallDevice_ok [] _ _
      (Run.init.step hseek) (List.replicate 10 0) 10
    have hheld : Held smallMount smallInode smallDevice ⟨4096, []⟩ :=
      ⟨by decide, fun hinside => absurd (by decide) hinside⟩
    rcases (read_end_iff smallDevice_ok hheld _ 10).mp hserves with hend | hzero
    · exact absurd hend (by decide)
    · exact absurd hzero (by decide)

end MierOS.Ext2
