/-
  MierOS.Ext2.Rw
  **READING A FILE OF EXT2**: `read` of `rw.cpp` over `get_inode_block`.

  The bytes up to the next block boundary come from the buffer of the stream,
  whole blocks go to the device in requests as long as the block map is
  contiguous, and the rest goes through the buffer again.

  Main results: `BufferOk`, `readBlocks_eq`, `read_buffered`.
-/
import Mathlib.Data.List.Basic
import Mathlib.Data.Nat.Bitwise
import MierOS.Types

namespace MierOS.Ext2

/-! ## §1. The file. -/

abbrev Byte := BitVec 8

/-- `MountInfo`: the exponent of the block size, and word `i` of a cached block,
`((u32_t*)read_cache_block(block)->ptr())[i]`. -/
structure MountInfo where
  blocksSize : Nat
  blocksSize_lt : blocksSize < 22
  cacheWord : Nat → Nat → Nat

/-- `block_size`. -/
def MountInfo.blockSize (mi : MountInfo) : Nat := 1024 <<< mi.blocksSize

/-- `get_lba(block)`. -/
def MountInfo.getLba (mi : MountInfo) (block : Nat) : Nat :=
  block * mi.blockSize % 2 ^ 32 / 512

/-- `Inode`; its size is the `f_size` of the node. -/
structure Inode where
  size : BitVec 32
  direct : Nat → Nat
  singlyIndirect : Nat
  doublyIndirect : Nat
  triplyIndirect : Nat

/-- `get_inode_block(mi, inode, inode_block_index)`. -/
def getInodeBlock (mi : MountInfo) (inode : Inode) (inodeBlockIndex : Nat) : Nat :=
  let ptrPerBlock := mi.blockSize / 4
  if inodeBlockIndex < 12 then inode.direct inodeBlockIndex
  else if inodeBlockIndex < (12 + ptrPerBlock) % 2 ^ 32 then
    mi.cacheWord inode.singlyIndirect (inodeBlockIndex - 12)
  else if inodeBlockIndex < (12 + ptrPerBlock + ptrPerBlock * ptrPerBlock) % 2 ^ 32 then
    let localIndex := inodeBlockIndex - 12 - ptrPerBlock
    let block := mi.cacheWord inode.doublyIndirect (localIndex / ptrPerBlock)
    mi.cacheWord block (localIndex % ptrPerBlock)
  else
    let localIndex := (inodeBlockIndex
      + (2 ^ 32 - (12 + ptrPerBlock + ptrPerBlock * ptrPerBlock) % 2 ^ 32)) % 2 ^ 32
    let doubly := mi.cacheWord inode.triplyIndirect
      (localIndex / (ptrPerBlock * ptrPerBlock % 2 ^ 32))
    let block := mi.cacheWord doubly (localIndex / ptrPerBlock % ptrPerBlock)
    mi.cacheWord block (localIndex % ptrPerBlock)

/-- `Ext2StreamDataStorage`, over what a cell of its buffer holds. -/
structure StreamDataOf (α : Type) where
  position : Nat
  buffer : List α
  deriving Repr, DecidableEq

abbrev StreamData := StreamDataOf Byte

/-! ## §2. `read`. -/

/-- `DeviceFilesystem::block_read(bdev, lba, sector_count, buffer)`: what it stores in the
buffer. -/
abbrev BlockReadOf (α : Type) := Nat → Nat → Except Errno (List α)

/-- The bytes read. -/
abbrev BlockRead := BlockReadOf Byte

/-- The state of a read: the stream, `leftToRead`, and what stands in the caller's
buffer. -/
structure ProgressOf (α : Type) where
  data : StreamDataOf α
  leftToRead : Nat
  out : List α
  deriving Repr, DecidableEq

abbrev Progress := ProgressOf Byte

section Read

variable {α : Type} (mi : MountInfo) (inode : Inode) (blockRead : BlockReadOf α)

/-- The first `n` bytes of a buffer with the bytes `held`, when `bytes` have been stored
in it. -/
def overwrite (held : List α) (n : Nat) (bytes : List α) : List α :=
  (bytes ++ held.drop bytes.length).take n

/-- `while(get_inode_block(startBlock + blkCount) == block + blkCount && blkCount <
blocksToRead) ++blkCount`, with `blocksToRead - blkCount` rounds left. -/
def countBlocks (block startBlock : Nat) : Nat → Nat → Nat
  | 0, blkCount => blkCount
  | left + 1, blkCount =>
      if getInodeBlock mi inode ((startBlock + blkCount) % 2 ^ 32) = block + blkCount then
        countBlocks block startBlock left (blkCount + 1)
      else blkCount

/-- The loop over the whole blocks; a round that reads nothing would go on for ever. The
buffer of the caller held `user`. -/
def readBlocks (user : List α) : Nat → Nat → ProgressOf α → Option (Option Errno × ProgressOf α)
  | _, 0, p => some (none, p)
  | 0, _ + 1, _ => none
  | fuel + 1, left + 1, p =>
      let blocksToRead := left + 1
      let startBlock := p.data.position >>> (mi.blocksSize + 10) % 2 ^ 32
      let block := getInodeBlock mi inode startBlock
      let blkCount := countBlocks mi inode block startBlock blocksToRead 0
      match blockRead (mi.getLba block) (mi.blockSize / 512 * blkCount % 2 ^ 32) with
      | .error errno => some (some errno, p)
      | .ok bytes =>
          readBlocks user fuel (blocksToRead - blkCount)
            { data := { p.data with position := p.data.position + blkCount * mi.blockSize }
              leftToRead := p.leftToRead - blkCount * mi.blockSize
              out := p.out ++ overwrite (user.drop p.out.length) (blkCount * mi.blockSize) bytes }

/-- The bytes up to the next block boundary, from the buffer. -/
def readHead (data : StreamDataOf α) (leftToRead : Nat) : ProgressOf α :=
  let offset := data.position &&& (mi.blockSize - 1)
  let sizeToRead := mi.blockSize - offset
  let sizeToRead := if sizeToRead = mi.blockSize then 0 else sizeToRead
  let sizeToRead := if sizeToRead > leftToRead then leftToRead else sizeToRead
  { data := { data with position := data.position + sizeToRead }
    leftToRead := leftToRead - sizeToRead
    out := (data.buffer.drop offset).take sizeToRead }

/-- The unaligned tail, through the buffer. -/
def readTail (p : ProgressOf α) : Option Errno × ProgressOf α :=
  let block := getInodeBlock mi inode (p.data.position >>> (mi.blocksSize + 10) % 2 ^ 32)
  match blockRead (mi.getLba block) (mi.blockSize / 512) with
  | .error errno => (some errno, p)
  | .ok bytes =>
      let buffer := overwrite p.data.buffer mi.blockSize bytes
      (none, { data := { position := p.data.position + p.leftToRead, buffer := buffer }
               leftToRead := 0
               out := p.out ++ buffer.take p.leftToRead })

/-- `read(minor, filestream, buffer, length)`, with `user` in the buffer: the value
returned, what stands behind `byteBuffer` then, and the stream. -/
def read (user : List α) (data : StreamDataOf α) (length : Nat) :
    Option (Except Errno Nat × List α × StreamDataOf α) :=
  let rest := (inode.size.toNat + (2 ^ 64 - data.position)) % 2 ^ 64
  let length := if rest < length then rest else length
  let p := readHead mi data length
  if p.leftToRead = 0 then some (.ok length, p.out, p.data)
  else
    match readBlocks mi inode blockRead user (p.leftToRead >>> (mi.blocksSize + 10))
        (p.leftToRead >>> (mi.blocksSize + 10)) p with
    | none => none
    | some (some errno, p) => some (.error errno, p.out, p.data)
    | some (none, p) =>
        if p.leftToRead = 0 then some (.ok length, p.out, p.data)
        else
          match readTail mi inode blockRead p with
          | (some errno, p) => some (.error errno, p.out, p.data)
          | (none, p) => some (.ok length, p.out, p.data)

/-- Several reads one after the other into one buffer: the bytes they store, in order. -/
def reads (user : List α) (data : StreamDataOf α) : List Nat → Option (List α × StreamDataOf α)
  | [] => some ([], data)
  | length :: lengths => do
      let (result, bytes, data) ← read mi inode blockRead user data length
      match result with
      | .error _ => none
      | .ok _ =>
          let (more, data) ← reads (user.drop bytes.length) data lengths
          pure (bytes ++ more, data)

end Read

/-! ## §3. The bytes of the file. -/

section File

variable {α : Type} (mi : MountInfo) (inode : Inode) (device : Nat → α)

/-- Byte `n` of the file: its block is the one `get_inode_block` gives. -/
def fileByte (n : Nat) : α :=
  device (getInodeBlock mi inode (n / mi.blockSize) * mi.blockSize + n % mi.blockSize)

/-- `n` bytes from `start` on. -/
def fileBytes (start n : Nat) : List α :=
  (List.range n).map fun i => fileByte mi inode device (start + i)

/-- **The invariant of the stream**: when the position is inside a block, that block
is in the buffer. -/
structure BufferOk (data : StreamDataOf α) : Prop where
  inside : data.position ≤ inode.size.toNat
  holds : data.position % mi.blockSize ≠ 0 →
    data.buffer
      = fileBytes mi inode device (data.position / mi.blockSize * mi.blockSize) mi.blockSize

/-- **What the read relies on**: `block_read` fills the whole request, and `get_lba`
is exact for the blocks of the file. -/
structure DeviceOk (blockRead : BlockReadOf α) : Prop where
  fills : ∀ lba count, blockRead lba count
    = .ok ((List.range (count * 512)).map fun i => device (lba * 512 + i))
  lba : ∀ i, i * mi.blockSize < inode.size.toNat →
    mi.getLba (getInodeBlock mi inode i) * 512 = getInodeBlock mi inode i * mi.blockSize

end File

section Blocks

variable {α : Type} {mi : MountInfo} {inode : Inode} {device : Nat → α}

/-- Of what the buffer held nothing is left. -/
theorem overwrite_full {held bytes : List α} {n : Nat} (h : bytes.length = n) :
    overwrite held n bytes = bytes := List.take_left' h

theorem blockSize_eq (mi : MountInfo) : mi.blockSize = 2 ^ (mi.blocksSize + 10) := by
  unfold MountInfo.blockSize
  rw [Nat.shiftLeft_eq, Nat.pow_add, Nat.mul_comm]

theorem blockSize_pos (mi : MountInfo) : 0 < mi.blockSize := by
  rw [blockSize_eq]
  exact Nat.pow_pos (by decide)

theorem blockSize_sectors (mi : MountInfo) : mi.blockSize / 512 * 512 = mi.blockSize := by
  refine Nat.div_mul_cancel ?_
  rw [blockSize_eq, show (512 : Nat) = 2 ^ 9 from rfl]
  exact Nat.pow_dvd_pow 2 (by omega)

theorem shift_eq_div (n : Nat) : n >>> (mi.blocksSize + 10) = n / mi.blockSize := by
  rw [Nat.shiftRight_eq_div_pow, blockSize_eq]

theorem mask_eq_mod (n : Nat) : n &&& (mi.blockSize - 1) = n % mi.blockSize := by
  rw [blockSize_eq, Nat.and_two_pow_sub_one_eq_mod]

theorem fileBytes_add (start a b : Nat) :
    fileBytes mi inode device start (a + b)
      = fileBytes mi inode device start a ++ fileBytes mi inode device (start + a) b := by
  unfold fileBytes
  rw [List.range_add (n := a) (m := b), List.map_append, List.map_map]
  refine congrArg _ (List.map_congr_left fun i _ => ?_)
  rw [Function.comp_apply, Nat.add_assoc]

theorem fileBytes_length (start n : Nat) : (fileBytes mi inode device start n).length = n := by
  unfold fileBytes
  rw [List.length_map, List.length_range]

theorem fileBytes_slice {start m o n : Nat} (h : o + n ≤ m) :
    ((fileBytes mi inode device start m).drop o).take n
      = fileBytes mi inode device (start + o) n := by
  obtain ⟨d, rfl⟩ := Nat.exists_eq_add_of_le h
  rw [fileBytes_add start (o + n) d, fileBytes_add start o n, List.append_assoc,
    List.drop_append_of_le_length (by rw [fileBytes_length]),
    List.drop_of_length_le (by rw [fileBytes_length]), List.nil_append,
    List.take_append_of_le_length (by rw [fileBytes_length]),
    List.take_of_length_le (by rw [fileBytes_length])]

/-- **A request**: `c` blocks of the file that follow each other on the device. -/
theorem blockRead_eq {blockRead : BlockReadOf α} (hok : DeviceOk mi inode device blockRead)
    {i c : Nat} (hi : i * mi.blockSize < inode.size.toNat)
    (hrun : ∀ j, j < c → getInodeBlock mi inode (i + j) = getInodeBlock mi inode i + j) :
    blockRead (mi.getLba (getInodeBlock mi inode i)) (mi.blockSize / 512 * c)
      = .ok (fileBytes mi inode device (i * mi.blockSize) (c * mi.blockSize)) := by
  rw [hok.fills, Nat.mul_right_comm, blockSize_sectors, hok.lba i hi, Nat.mul_comm mi.blockSize c]
  unfold fileBytes
  refine congrArg _ (List.map_congr_left fun n hn => ?_)
  have hn : n < c * mi.blockSize := List.mem_range.mp hn
  have hpos := blockSize_pos mi
  unfold fileByte
  rw [Nat.mul_comm i, Nat.mul_add_div hpos, Nat.mul_add_mod,
    hrun _ ((Nat.div_lt_iff_lt_mul hpos).mpr hn), Nat.add_mul, Nat.add_assoc,
    Nat.div_add_mod']

/-! ## §4. The loop over the whole blocks. -/

/-- Counting goes on while the blocks follow each other. -/
theorem countBlocks_spec (block startBlock left blkCount : Nat)
    (hsmall : startBlock + blkCount + left ≤ 2 ^ 32)
    (hrun : ∀ j, j < blkCount → getInodeBlock mi inode (startBlock + j) = block + j) :
    let c := countBlocks mi inode block startBlock left blkCount
    blkCount ≤ c ∧ c ≤ blkCount + left
      ∧ ∀ j, j < c → getInodeBlock mi inode (startBlock + j) = block + j := by
  induction left generalizing blkCount with
  | zero => exact ⟨Nat.le_refl _, Nat.le_refl _, hrun⟩
  | succ left ih =>
      intro c
      have hmod : (startBlock + blkCount) % 2 ^ 32 = startBlock + blkCount :=
        Nat.mod_eq_of_lt (by omega)
      by_cases hnext : getInodeBlock mi inode (startBlock + blkCount) = block + blkCount
      · have hc : c = countBlocks mi inode block startBlock left (blkCount + 1) := by
          show (if getInodeBlock mi inode ((startBlock + blkCount) % 2 ^ 32) = _ then _ else _) = _
          rw [hmod, if_pos hnext]
        obtain ⟨hlo, hhi, hall⟩ := ih (blkCount + 1) (by omega) fun j hj => by
          rcases Nat.lt_succ_iff_lt_or_eq.mp hj with hlt | rfl
          · exact hrun j hlt
          · exact hnext
        rw [hc]
        exact ⟨by omega, by omega, hall⟩
      · have hc : c = blkCount := by
          show (if getInodeBlock mi inode ((startBlock + blkCount) % 2 ^ 32) = _ then _ else _) = _
          rw [hmod, if_neg hnext]
        rw [hc]
        exact ⟨Nat.le_refl _, by omega, hrun⟩

/-- **The blocks of one request**: at least one, no more than asked for, and one after
the other on the device. -/
theorem countBlocks_first (mi : MountInfo) (inode : Inode) {startBlock left : Nat}
    (hsmall : startBlock + (left + 1) ≤ 2 ^ 32) :
    let block := getInodeBlock mi inode startBlock
    let c := countBlocks mi inode block startBlock (left + 1) 0
    1 ≤ c ∧ c ≤ left + 1
      ∧ ∀ j, j < c → getInodeBlock mi inode (startBlock + j) = block + j := by
  intro block c
  have hc : c = countBlocks mi inode block startBlock left 1 := by
    show (if getInodeBlock mi inode ((startBlock + 0) % 2 ^ 32) = block + 0 then _ else _) = _
    rw [Nat.add_zero, Nat.mod_eq_of_lt (by omega)]
    exact if_pos rfl
  obtain ⟨hlo, hhi, hall⟩ := countBlocks_spec block startBlock left 1 (by omega) fun j hj => by
    rw [Nat.lt_one_iff.mp hj]
    rfl
  rw [hc]
  exact ⟨hlo, by omega, hall⟩

/-- **The loop**: whole blocks of the file go to the caller. -/
theorem readBlocks_eq {blockRead : BlockReadOf α} (hok : DeviceOk mi inode device blockRead)
    (user : List α) :
    ∀ (fuel blocks : Nat) (p : ProgressOf α) (start : Nat), blocks ≤ fuel →
      p.data.position = start * mi.blockSize → blocks * mi.blockSize ≤ p.leftToRead →
      p.data.position + p.leftToRead ≤ inode.size.toNat →
      readBlocks mi inode blockRead user fuel blocks p = some (none,
        { data := { p.data with position := p.data.position + blocks * mi.blockSize }
          leftToRead := p.leftToRead - blocks * mi.blockSize
          out := p.out ++ fileBytes mi inode device p.data.position (blocks * mi.blockSize) }) := by
  intro fuel
  induction fuel with
  | zero =>
      intro blocks p start hfuel _ _ _
      rw [Nat.le_zero.mp hfuel, Nat.zero_mul]
      show some (none, p) = some (none, (⟨p.data, p.leftToRead, p.out ++ []⟩ : ProgressOf α))
      rw [List.append_nil]
  | succ fuel ih =>
      intro blocks p start hfuel hpos hleft hsize
      cases blocks with
      | zero =>
          rw [Nat.zero_mul]
          show some (none, p)
            = some (none, (⟨p.data, p.leftToRead, p.out ++ []⟩ : ProgressOf α))
          rw [List.append_nil]
      | succ left =>
          have hbs := blockSize_pos mi
          have h32 := inode.size.isLt
          have hspan : (start + (left + 1)) * mi.blockSize ≤ inode.size.toNat := by
            rw [Nat.add_mul]
            omega
          -- the blocks of the file are few enough for their numbers
          have hsmall : start + (left + 1) ≤ 2 ^ 32 :=
            Nat.le_trans (Nat.le_mul_of_pos_right _ hbs) (by omega)
          have hstart : p.data.position >>> (mi.blocksSize + 10) % 2 ^ 32 = start := by
            rw [shift_eq_div, hpos, Nat.mul_div_cancel _ hbs]
            exact Nat.mod_eq_of_lt (by omega)
          obtain ⟨hc1, hcle, hall⟩ := countBlocks_first mi inode hsmall
          unfold readBlocks
          dsimp only
          rw [hstart]
          generalize countBlocks mi inode (getInodeBlock mi inode start) start (left + 1) 0 = c
            at hc1 hcle hall
          obtain ⟨d, hd⟩ := Nat.exists_eq_add_of_le hcle
          have hbytes : (left + 1) * mi.blockSize = c * mi.blockSize + d * mi.blockSize := by
            rw [hd, Nat.add_mul]
          have hsectors : mi.blockSize / 512 * c % 2 ^ 32 = mi.blockSize / 512 * c := by
            have hle := Nat.mul_le_mul_right c (Nat.div_le_self mi.blockSize 512)
            rw [Nat.mul_comm mi.blockSize c] at hle
            exact Nat.mod_eq_of_lt (by omega)
          have hfirst : start * mi.blockSize < inode.size.toNat := by
            rw [Nat.add_mul, Nat.succ_mul] at hspan
            omega
          rw [hsectors, blockRead_eq hok hfirst hall, show left + 1 - c = d by omega]
          dsimp only
          rw [overwrite_full (fileBytes_length _ _), ih d _ (start + c) (by omega)
            (show p.data.position + c * mi.blockSize = (start + c) * mi.blockSize by
              rw [hpos, Nat.add_mul])
            (show d * mi.blockSize ≤ p.leftToRead - c * mi.blockSize by omega)
            (show p.data.position + c * mi.blockSize + (p.leftToRead - c * mi.blockSize)
              ≤ inode.size.toNat by omega)]
          dsimp only
          rw [hbytes, fileBytes_add, hpos, Nat.add_assoc, Nat.sub_sub, List.append_assoc]

/-! ## §5. The whole read. -/

/-- **The head**: as many bytes as the buffer has behind the position, up to what is
asked for. -/
theorem readHead_eq {data : StreamDataOf α} (hok : BufferOk mi inode device data) (left : Nat) :
    ∃ n, n ≤ left ∧ readHead mi data left
        = { data := { data with position := data.position + n }
            leftToRead := left - n, out := fileBytes mi inode device data.position n }
      ∧ (n = 0 ∨ data.position % mi.blockSize ≠ 0
        ∧ data.position % mi.blockSize + n ≤ mi.blockSize)
      ∧ (n = left ∨ (data.position + n) % mi.blockSize = 0) := by
  have hbs := blockSize_pos mi
  have hoff := Nat.mod_lt data.position hbs
  have hdiv := Nat.div_add_mod' data.position mi.blockSize
  unfold readHead
  rw [mask_eq_mod]
  dsimp only
  by_cases haligned : data.position % mi.blockSize = 0
  · refine ⟨0, Nat.zero_le _, ?_, Or.inl rfl, Or.inr haligned⟩
    rw [haligned, Nat.sub_zero, if_pos rfl, if_neg (Nat.not_lt_zero left)]
    rfl
  · rw [if_neg (show mi.blockSize - data.position % mi.blockSize ≠ mi.blockSize by omega)]
    have hslice : ∀ n, data.position % mi.blockSize + n ≤ mi.blockSize →
        (data.buffer.drop (data.position % mi.blockSize)).take n
          = fileBytes mi inode device data.position n := by
      intro n hn
      rw [hok.holds haligned, fileBytes_slice hn, hdiv]
    by_cases hall : mi.blockSize - data.position % mi.blockSize > left
    · refine ⟨left, Nat.le_refl _, ?_, Or.inr ⟨haligned, by omega⟩, Or.inl rfl⟩
      rw [if_pos hall, hslice left (by omega)]
    · refine ⟨mi.blockSize - data.position % mi.blockSize, by omega, ?_,
        Or.inr ⟨haligned, by omega⟩, Or.inr ?_⟩
      · rw [if_neg hall, hslice _ (by omega)]
      · -- the position moves to the next boundary
        rw [show data.position + (mi.blockSize - data.position % mi.blockSize)
          = data.position / mi.blockSize * mi.blockSize + mi.blockSize by omega,
          Nat.add_mod_right, Nat.mul_mod_left]

/-- Inside its block the position takes the buffer along. -/
theorem BufferOk.advance {data : StreamDataOf α} (hok : BufferOk mi inode device data) {n : Nat}
    (hsize : data.position + n ≤ inode.size.toNat)
    (hn : n = 0 ∨ data.position % mi.blockSize ≠ 0
      ∧ data.position % mi.blockSize + n ≤ mi.blockSize) :
    BufferOk mi inode device { data with position := data.position + n } := by
  refine ⟨hsize, fun hinside => ?_⟩
  have hinside : (data.position + n) % mi.blockSize ≠ 0 := hinside
  show data.buffer = fileBytes mi inode device
    ((data.position + n) / mi.blockSize * mi.blockSize) mi.blockSize
  rcases Nat.eq_zero_or_pos n with rfl | hpos
  · exact hok.holds hinside
  · obtain ⟨haligned, hn⟩ := hn.resolve_left (Nat.ne_of_gt hpos)
    have hbs := blockSize_pos mi
    have hoff := Nat.mod_lt data.position hbs
    have hdiv := Nat.div_add_mod data.position mi.blockSize
    have hsplit : data.position + n = mi.blockSize * (data.position / mi.blockSize)
        + (data.position % mi.blockSize + n) := by omega
    rw [hsplit, Nat.mul_add_mod] at hinside
    have hlt : data.position % mi.blockSize + n < mi.blockSize := by
      refine Nat.lt_of_le_of_ne hn fun heq => hinside ?_
      rw [heq, Nat.mod_self]
    rw [hsplit, Nat.mul_add_div hbs, Nat.div_eq_of_lt hlt, Nat.add_zero]
    exact hok.holds haligned

/-- **The tail**: the rest of the bytes, and the block they are in. -/
theorem readTail_eq {blockRead : BlockReadOf α} (hdev : DeviceOk mi inode device blockRead)
    {p : ProgressOf α} {start : Nat} (hpos : p.data.position = start * mi.blockSize)
    (hleft : 0 < p.leftToRead) (hblock : p.leftToRead < mi.blockSize)
    (hsize : p.data.position + p.leftToRead ≤ inode.size.toNat) :
    ∃ data', readTail mi inode blockRead p
        = (none, ⟨data', 0, p.out ++ fileBytes mi inode device p.data.position p.leftToRead⟩)
      ∧ data'.position = p.data.position + p.leftToRead ∧ BufferOk mi inode device data' := by
  have hbs := blockSize_pos mi
  have h32 := inode.size.isLt
  have hsmall : start < 2 ^ 32 :=
    Nat.lt_of_le_of_lt (Nat.le_mul_of_pos_right _ hbs) (by omega)
  have hstart : p.data.position >>> (mi.blocksSize + 10) % 2 ^ 32 = start := by
    rw [shift_eq_div, hpos, Nat.mul_div_cancel _ hbs, Nat.mod_eq_of_lt hsmall]
  have hread := blockRead_eq hdev (i := start) (c := 1) (by omega) fun j hj => by
    rw [Nat.lt_one_iff.mp hj]
    rfl
  rw [Nat.mul_one, Nat.one_mul] at hread
  unfold readTail
  dsimp only
  rw [hstart, hread]
  dsimp only
  rw [overwrite_full (fileBytes_length _ _)]
  -- of the last block the caller gets the beginning
  have htake : (fileBytes mi inode device (start * mi.blockSize) mi.blockSize).take p.leftToRead
      = fileBytes mi inode device p.data.position p.leftToRead := by
    have hslice : ((fileBytes mi inode device p.data.position mi.blockSize).drop 0).take
        p.leftToRead = fileBytes mi inode device (p.data.position + 0) p.leftToRead :=
      fileBytes_slice (by omega)
    rw [← hpos]
    exact hslice
  refine ⟨⟨p.data.position + p.leftToRead, fileBytes mi inode device (start * mi.blockSize)
    mi.blockSize⟩, ?_, rfl, hsize, fun _ => ?_⟩
  · rw [htake]
  · show fileBytes mi inode device (start * mi.blockSize) mi.blockSize
      = fileBytes mi inode device
        ((p.data.position + p.leftToRead) / mi.blockSize * mi.blockSize) mi.blockSize
    rw [hpos, Nat.mul_comm start, Nat.mul_add_div hbs, Nat.div_eq_of_lt hblock, Nat.add_zero,
      Nat.mul_comm start]

/-- **One read.** -/
theorem read_eq {blockRead : BlockReadOf α} (hdev : DeviceOk mi inode device blockRead)
    {data : StreamDataOf α} (hok : BufferOk mi inode device data) (user : List α) (length : Nat) :
    let n := min length (inode.size.toNat - data.position)
    ∃ data', read mi inode blockRead user data length
        = some (.ok n, fileBytes mi inode device data.position n, data')
      ∧ data'.position = data.position + n ∧ BufferOk mi inode device data' := by
  have hbs := blockSize_pos mi
  have hinside := hok.inside
  have h32 := inode.size.isLt
  -- in the file the rest does not wrap
  have hrest : (inode.size.toNat + (2 ^ 64 - data.position)) % 2 ^ 64
      = inode.size.toNat - data.position := by
    rw [show inode.size.toNat + (2 ^ 64 - data.position)
      = inode.size.toNat - data.position + 2 ^ 64 by omega, Nat.add_mod_right,
      Nat.mod_eq_of_lt (by omega)]
  have hlength : (if inode.size.toNat - data.position < length then
      inode.size.toNat - data.position else length)
        = min length (inode.size.toNat - data.position) := by
    split <;> omega
  dsimp only
  unfold read
  dsimp only
  rw [hrest, hlength]
  have hn : data.position + min length (inode.size.toNat - data.position)
      ≤ inode.size.toNat := by omega
  generalize min length (inode.size.toNat - data.position) = n at hn
  obtain ⟨m, hm, hhead, hbuffer, hend⟩ := readHead_eq hok n
  have hok' := hok.advance (by omega) hbuffer
  rw [hhead]
  dsimp only
  by_cases hdone : n - m = 0
  · -- the buffer had everything
    have hmn : m = n := by omega
    subst hmn
    rw [if_pos hdone]
    exact ⟨_, rfl, rfl, hok'⟩
  · have haligned := hend.resolve_left (by omega)
    obtain ⟨start, hstart⟩ := Nat.dvd_of_mod_eq_zero haligned
    rw [Nat.mul_comm] at hstart
    have hblocks := Nat.div_add_mod' (n - m) mi.blockSize
    have htail := Nat.mod_lt (n - m) hbs
    have hloop := readBlocks_eq hdev user ((n - m) / mi.blockSize) ((n - m) / mi.blockSize)
      ⟨⟨data.position + m, data.buffer⟩, n - m, fileBytes mi inode device data.position m⟩ start
      (Nat.le_refl _) hstart (Nat.div_mul_le_self _ _)
      (show data.position + m + (n - m) ≤ inode.size.toNat by omega)
    rw [if_neg hdone, shift_eq_div, hloop]
    dsimp only
    rw [show n - m - (n - m) / mi.blockSize * mi.blockSize = (n - m) % mi.blockSize by omega,
      ← fileBytes_add]
    generalize (n - m) / mi.blockSize = blocks at *
    have hpos : data.position + m + blocks * mi.blockSize = (start + blocks) * mi.blockSize := by
      rw [hstart, Nat.add_mul]
    by_cases hnone : (n - m) % mi.blockSize = 0
    · rw [if_pos hnone, show m + blocks * mi.blockSize = n by omega]
      refine ⟨_, rfl, show data.position + m + blocks * mi.blockSize = _ by omega,
        show data.position + m + blocks * mi.blockSize ≤ _ by omega, fun hmod => absurd ?_ hmod⟩
      show (data.position + m + blocks * mi.blockSize) % mi.blockSize = 0
      rw [hpos, Nat.mul_mod_left]
    · rw [if_neg hnone]
      obtain ⟨data', hread, hpos', hok''⟩ := readTail_eq hdev
        (p := ⟨⟨data.position + m + blocks * mi.blockSize, data.buffer⟩, (n - m) % mi.blockSize,
          fileBytes mi inode device data.position (m + blocks * mi.blockSize)⟩)
        hpos (Nat.pos_of_ne_zero hnone) htail
        (show data.position + m + blocks * mi.blockSize + (n - m) % mi.blockSize ≤ _ by omega)
      rw [hread]
      refine ⟨data', ?_, ?_, hok''⟩
      · dsimp only
        rw [Nat.add_assoc data.position, ← fileBytes_add,
          show m + blocks * mi.blockSize + (n - m) % mi.blockSize = n by omega]
      · rw [hpos']
        show data.position + m + blocks * mi.blockSize + (n - m) % mi.blockSize = _
        omega

/-- **Reads one after the other** store what one read of the sum would. -/
theorem reads_eq {blockRead : BlockReadOf α} (hdev : DeviceOk mi inode device blockRead)
    (lengths : List Nat) : ∀ {data : StreamDataOf α}, BufferOk mi inode device data →
    ∀ user, ∃ data', reads mi inode blockRead user data lengths
        = some (fileBytes mi inode device data.position
            (min lengths.sum (inode.size.toNat - data.position)), data')
      ∧ data'.position = data.position + min lengths.sum (inode.size.toNat - data.position)
      ∧ BufferOk mi inode device data' := by
  induction lengths with
  | nil =>
      intro data hok user
      rw [List.sum_nil, Nat.zero_min]
      exact ⟨data, rfl, rfl, hok⟩
  | cons length lengths ih =>
      intro data hok user
      obtain ⟨data₁, hread, hpos₁, hok₁⟩ := read_eq hdev hok user length
      obtain ⟨data₂, hreads, hpos₂, hok₂⟩ := ih hok₁ (user.drop (fileBytes mi inode device
        data.position (min length (inode.size.toNat - data.position))).length)
      have hinside := hok.inside
      have hsum : min (length + lengths.sum) (inode.size.toNat - data.position)
          = min length (inode.size.toNat - data.position)
            + min lengths.sum (inode.size.toNat - data₁.position) := by
        rw [hpos₁]
        omega
      rw [List.sum_cons, hsum, fileBytes_add, ← hpos₁]
      refine ⟨data₂, ?_, by rw [hpos₂, hpos₁, Nat.add_assoc], hok₂⟩
      unfold reads
      rw [hread]
      simp only [Option.bind_eq_bind, Option.bind_some]
      rw [hreads]
      rfl

end Blocks

/-- **THE BUFFERED READ.**  From any stream in order, a read of any length into any buffer
returns the number of bytes there are, up to the length, stores these bytes of the file, moves
the position behind them and leaves the stream in order; and however a read is split,
the pieces store the same bytes as one read and end at the same position. -/
theorem read_buffered {mi : MountInfo} {inode : Inode} {device : Nat → Byte}
    {blockRead : BlockRead} (hdev : DeviceOk mi inode device blockRead) {data : StreamData}
    (hok : BufferOk mi inode device data) :
    (∀ user length, ∃ data',
      read mi inode blockRead user data length
        = some (.ok (min length (inode.size.toNat - data.position)),
            fileBytes mi inode device data.position
              (min length (inode.size.toNat - data.position)), data')
        ∧ data'.position = data.position + min length (inode.size.toNat - data.position)
        ∧ BufferOk mi inode device data')
      ∧ ∀ user lengths, ∃ n bytes data' data'',
        read mi inode blockRead user data lengths.sum = some (.ok n, bytes, data')
          ∧ reads mi inode blockRead user data lengths = some (bytes, data'')
          ∧ data''.position = data'.position ∧ BufferOk mi inode device data'' := by
  refine ⟨fun user length => read_eq hdev hok user length, fun user lengths => ?_⟩
  obtain ⟨data', hread, hpos', -⟩ := read_eq hdev hok user lengths.sum
  obtain ⟨data'', hreads, hpos'', hok''⟩ := reads_eq hdev lengths hok user
  exact ⟨_, _, data', data'', hread, hreads, hpos''.trans hpos'.symm, hok''⟩

/-- Three blocks of 1024 bytes in a row from block 5 on, and a file of 3000 bytes. -/
def smallMount : MountInfo := ⟨0, by decide, fun _ _ => 0⟩
def smallInode : Inode := ⟨3000, fun i => 5 + i, 0, 0, 0⟩
def smallDevice (n : Nat) : Byte := BitVec.ofNat 8 n
def smallRead : BlockRead := fun lba count =>
  .ok ((List.range (count * 512)).map fun i => smallDevice (lba * 512 + i))

theorem smallDevice_ok : DeviceOk smallMount smallInode smallDevice smallRead := by
  refine ⟨fun _ _ => rfl, fun i hi => ?_⟩
  have hi : i * 1024 < 3000 := hi
  have hblock : getInodeBlock smallMount smallInode i = 5 + i := if_pos (by omega)
  rw [hblock]
  show (5 + i) * 1024 % 2 ^ 32 / 512 * 512 = (5 + i) * 1024
  omega

theorem read_buffered_small :
    ∃ data', read smallMount smallInode smallRead (List.replicate 2000 0) ⟨0, []⟩ 2000
        = some (.ok 2000, fileBytes smallMount smallInode smallDevice 0 2000, data')
      ∧ data'.position = 2000 ∧ BufferOk smallMount smallInode smallDevice data' :=
  (read_buffered smallDevice_ok ⟨Nat.zero_le _, fun h => absurd rfl h⟩).1 _ 2000

end MierOS.Ext2
