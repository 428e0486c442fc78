/-
  MierOS.Ext2.Mount
  **MOUNTING**: `mount` of `mount.cpp`, the formulas of `mount_info.hpp` and
  `read_inode` of `inode.cpp`.

  Every field of the superblock is what the disk says.  Five formulas divide by such
  fields, and only the signature is checked; a division by zero is a trap.  The buffer
  of the group descriptors is as large as their table, and one block of it is read.

  Main results: `mount_eq`, `readInode_ok_iff`, `superblock_robust_iff`,
  `group_descriptors_iff`.
-/
import MierOS.Ext2.Rw
import MierOS.Partition.Gpt

namespace MierOS.Ext2

open Gpt (le Trap)

/-! ## §1. The code. -/

/-- Memory, or a device, byte by byte. -/
abbrev Bytes := Nat → Byte

/-- What the code reads of a `Superblock`. -/
structure Superblock where
  totalInodes : Nat
  totalBlocks : Nat
  blocksSize : Nat
  groupBlockCount : Nat
  groupInodeCount : Nat
  signature : Nat
  versionMajor : Nat
  extInodeSize : Nat
  deriving Repr, DecidableEq

/-- The fields where `superblock.hpp` has them. -/
def Superblock.ofBytes (b : Bytes) : Superblock where
  totalInodes := le b 0 4
  totalBlocks := le b 4 4
  blocksSize := le b 24 4
  groupBlockCount := le b 32 4
  groupInodeCount := le b 40 4
  signature := le b 56 2
  versionMajor := le b 76 4
  extInodeSize := le b 88 2

/-- What `MountInfo` has for `mount` and `read_inode`: of `block_groups` the number of
elements it was resized to, and the bytes. -/
structure Mounted where
  superblock : Superblock
  blockGroupCount : Nat
  blockSize : Nat
  sbExt : Bool
  blockGroupsLength : Nat
  blockGroups : Bytes

/-- `a / b` of unsigned integers. -/
def divide (a b : Nat) : Except Trap Nat := if b = 0 then .error .divideError else .ok (a / b)

/-- `a % b` of unsigned integers. -/
def remainder (a b : Nat) : Except Trap Nat := if b = 0 then .error .divideError else .ok (a % b)

/-- `1024 << blocks_size`: the processor takes the count modulo 32. -/
def shiftedBlockSize (blocksSize : Nat) : Nat := 1024 <<< (blocksSize % 32) % 2 ^ 32

/-- A buffer after `block_read`, whose result `mount` does not look at. -/
def Bytes.stored (old : Bytes) : Except Errno (List Byte) → Bytes
  | .ok bytes => fun i => bytes.getD i (old i)
  | .error _ => old

namespace Mounted

variable (mi : Mounted)

/-- `get_lba(block)`. -/
def getLba (block : Nat) : Nat := block * mi.blockSize % 2 ^ 32 / 512

/-- `get_group_descriptor_block(group_index)`. -/
def getGroupDescriptorBlock (groupIndex : Nat) : Nat :=
  (mi.superblock.groupBlockCount * groupIndex
    + (if mi.superblock.blocksSize = 0 then 2 else 1)) % 2 ^ 32

/-- `get_inode_group(inode_index)`. -/
def getInodeGroup (inodeIndex : Nat) : Except Trap Nat :=
  divide ((inodeIndex + (2 ^ 32 - 1)) % 2 ^ 32) mi.superblock.groupInodeCount

/-- `get_inode_local_index(inode_index)`. -/
def getInodeLocalIndex (inodeIndex : Nat) : Except Trap Nat :=
  remainder ((inodeIndex + (2 ^ 32 - 1)) % 2 ^ 32) mi.superblock.groupInodeCount

/-- `get_inode_block(inode_index)`. -/
def getInodeTableBlock (inodeIndex : Nat) : Except Trap Nat := do
  let localIndex ← mi.getInodeLocalIndex inodeIndex
  divide (localIndex * mi.superblock.extInodeSize % 2 ^ 32) mi.blockSize

end Mounted

/-- `INodePtr`: the number of the cached block and the offset in it. -/
structure INodePtr where
  block : Nat
  offset : Nat
  deriving Repr, DecidableEq

/-- `block_groups[group].inode_table`. -/
def Mounted.inodeTable (mi : Mounted) (group : Nat) : Nat := le mi.blockGroups (32 * group + 8) 4

/-- `read_inode(mi, inode_idx)`. -/
def readInode (mi : Mounted) (inodeIdx : Nat) : Except Trap INodePtr := do
  let inodeGroup ← mi.getInodeGroup inodeIdx
  let inodeTableBlock := mi.inodeTable inodeGroup
  let inodeBlock ← mi.getInodeTableBlock inodeIdx
  let inodesPerBlock ← divide mi.blockSize mi.superblock.extInodeSize
  let inodeSlot ← remainder ((inodeIdx + (2 ^ 32 - 1)) % 2 ^ 32) inodesPerBlock
  return ⟨(inodeBlock + inodeTableBlock) % 2 ^ 32,
    inodeSlot * mi.superblock.extInodeSize % 2 ^ 32⟩

/-- `mount` with these bytes in the superblock's buffer; `fresh` is what the pages of
`block_groups` hold when they are allocated. -/
def mountSuperblock (blockRead : BlockRead) (fresh superblock : Bytes) :
    Except Trap (Except Errno Mounted) := do
  let sb := Superblock.ofBytes superblock
  if sb.signature ≠ 0xef53 then return .error .EINVAL
  -- read the superblock
  let full ← divide sb.totalBlocks sb.groupBlockCount
  let rest ← remainder sb.totalBlocks sb.groupBlockCount
  let mi : Mounted :=
    { superblock := sb
      blockGroupCount := (full + (if rest = 0 then 0 else 1)) % 2 ^ 32
      blockSize := shiftedBlockSize sb.blocksSize
      sbExt := decide (sb.versionMajor ≥ 1)
      blockGroupsLength := 0
      blockGroups := fresh }
  -- read the block groups
  let byteSize := mi.blockGroupCount * 32
  let full ← divide byteSize mi.blockSize
  let rest ← remainder byteSize mi.blockSize
  return .ok { mi with
    blockGroupsLength := (full + (if rest = 0 then 0 else 1)) * mi.blockSize / 32
    blockGroups := fresh.stored
      (blockRead (mi.getLba (mi.getGroupDescriptorBlock 0)) (mi.blockSize / 512)) }

/-- `mount(fs_file)`: the `MountInfo` that it enters into `mounted_filesystems`. -/
def mount (blockRead : BlockRead) (fresh freshSuperblock : Bytes) :
    Except Trap (Except Errno Mounted) :=
  mountSuperblock blockRead fresh (freshSuperblock.stored (blockRead 2 2))

/-! ## §2. Getting through the divisions. -/

section Divisions

variable {a b : Nat} {mi : Mounted} {blockRead : BlockRead} {fresh freshSuperblock : Bytes}

theorem divide_ok (h : b ≠ 0) : divide a b = .ok (a / b) := if_neg h

theorem remainder_ok (h : b ≠ 0) : remainder a b = .ok (a % b) := if_neg h

theorem divide_zero (a : Nat) : divide a 0 = .error .divideError := rfl

/-- The bytes that `block_read` leaves in the superblock's buffer, as a superblock. -/
def readSuperblock (blockRead : BlockRead) (freshSuperblock : Bytes) : Superblock :=
  Superblock.ofBytes (freshSuperblock.stored (blockRead 2 2))

/-- The quotient rounded up, as `mount` computes it twice. -/
def ceilDiv (a b : Nat) : Nat := a / b + (if a % b = 0 then 0 else 1)

/-- `block_group_count` and `block_size` of a superblock. -/
def Superblock.groupCount (sb : Superblock) : Nat :=
  ceilDiv sb.totalBlocks sb.groupBlockCount % 2 ^ 32

/-- The `MountInfo` of a superblock, with the buffer of `block_groups` allocated. -/
def allocatedOf (fresh : Bytes) (sb : Superblock) : Mounted where
  superblock := sb
  blockGroupCount := sb.groupCount
  blockSize := shiftedBlockSize sb.blocksSize
  sbExt := decide (sb.versionMajor ≥ 1)
  blockGroupsLength := ceilDiv (sb.groupCount * 32) (shiftedBlockSize sb.blocksSize)
    * shiftedBlockSize sb.blocksSize / 32
  blockGroups := fresh

/-- The `MountInfo` of a superblock. -/
def mountedOf (blockRead : BlockRead) (fresh : Bytes) (sb : Superblock) : Mounted :=
  let mi := allocatedOf fresh sb
  { mi with
    blockGroups := fresh.stored
      (blockRead (mi.getLba (mi.getGroupDescriptorBlock 0)) (mi.blockSize / 512)) }

/-- **What `mount` comes to**: it divides by the blocks of a group and by the block size. -/
theorem mount_eq (hsig : (readSuperblock blockRead freshSuperblock).signature = 0xef53) :
    mount blockRead fresh freshSuperblock
      = if (readSuperblock blockRead freshSuperblock).groupBlockCount = 0
          ∨ shiftedBlockSize (readSuperblock blockRead freshSuperblock).blocksSize = 0
        then .error .divideError
        else .ok (.ok (mountedOf blockRead fresh (readSuperblock blockRead freshSuperblock))) := by
  unfold mount mountSuperblock
  rw [← show readSuperblock blockRead freshSuperblock = Superblock.ofBytes _ from rfl]
  generalize readSuperblock blockRead freshSuperblock = sb at hsig
  dsimp only
  rw [if_neg (not_not.mpr hsig)]
  by_cases hgroup : sb.groupBlockCount = 0
  · rw [if_pos (Or.inl hgroup), hgroup]
    rfl
  · by_cases hsize : shiftedBlockSize sb.blocksSize = 0
    · rw [if_pos (Or.inr hsize), divide_ok hgroup, remainder_ok hgroup, hsize]
      rfl
    · rw [if_neg (not_or.mpr ⟨hgroup, hsize⟩)]
      simp only [divide_ok hgroup, remainder_ok hgroup, divide_ok hsize, remainder_ok hsize]
      rfl

/-- The fields that `read_inode` divides by allow it: inodes to a group, a block size, and
inodes that fit into a block. -/
structure Mounted.Divisible (mi : Mounted) : Prop where
  groupInodeCount : mi.superblock.groupInodeCount ≠ 0
  blockSize : mi.blockSize ≠ 0
  extInodeSize : mi.superblock.extInodeSize ≠ 0
  inodeFits : mi.superblock.extInodeSize ≤ mi.blockSize

/-- **When `read_inode` returns**, for any inode number at all. -/
theorem readInode_ok_iff (inodeIdx : Nat) :
    (∃ ptr, readInode mi inodeIdx = .ok ptr) ↔ mi.Divisible := by
  unfold readInode Mounted.getInodeGroup Mounted.getInodeTableBlock Mounted.getInodeLocalIndex
  by_cases hgroup : mi.superblock.groupInodeCount = 0
  · rw [hgroup]
    exact ⟨fun ⟨_, h⟩ => absurd h nofun, fun h => absurd hgroup h.groupInodeCount⟩
  rw [divide_ok hgroup, remainder_ok hgroup]
  by_cases hsize : mi.blockSize = 0
  · rw [hsize]
    exact ⟨fun ⟨_, h⟩ => absurd h nofun, fun h => absurd hsize h.blockSize⟩
  by_cases hinode : mi.superblock.extInodeSize = 0
  · rw [hinode]
    simp only [divide_ok hsize, divide_zero]
    exact ⟨fun ⟨_, h⟩ => absurd h nofun, fun h => absurd hinode h.extInodeSize⟩
  by_cases hfits : mi.superblock.extInodeSize ≤ mi.blockSize
  · have hper : mi.blockSize / mi.superblock.extInodeSize ≠ 0 :=
      Nat.ne_of_gt (Nat.div_pos hfits (Nat.pos_of_ne_zero hinode))
    simp only [divide_ok hsize, divide_ok hinode]
    exact ⟨fun _ => ⟨hgroup, hsize, hinode, hfits⟩, fun _ => ⟨_, by
      show (do
        let inodeSlot ← remainder _ (mi.blockSize / mi.superblock.extInodeSize)
        _) = _
      rw [remainder_ok hper]
      rfl⟩⟩
  · -- no inode fits into a block, and the remainder is by zero
    have hper : mi.blockSize / mi.superblock.extInodeSize = 0 :=
      Nat.div_eq_of_lt (Nat.lt_of_not_le hfits)
    simp only [divide_ok hsize, divide_ok hinode]
    refine ⟨fun ⟨ptr, h⟩ => absurd h ?_, fun h => absurd h.inodeFits hfits⟩
    show (do
      let inodeSlot ← remainder _ (mi.blockSize / mi.superblock.extInodeSize)
      _) ≠ _
    rw [hper]
    nofun

theorem shiftedBlockSize_eq {k : Nat} (hk : k % 32 < 22) :
    shiftedBlockSize k = 2 ^ (k % 32 + 10) := by
  unfold shiftedBlockSize
  rw [Nat.shiftLeft_eq, show 1024 = 2 ^ 10 from rfl, ← Nat.pow_add, Nat.add_comm]
  exact Nat.mod_eq_of_lt (Nat.pow_lt_pow_right (by decide) (by omega))

/-- From a shift by 22 on the block size is shifted out of its 32 bits. -/
theorem shiftedBlockSize_ne_zero_iff {k : Nat} : shiftedBlockSize k ≠ 0 ↔ k % 32 < 22 := by
  constructor
  · intro h
    by_contra hk
    refine h ?_
    -- 1024 has its bit moved past the 32
    obtain ⟨d, hd⟩ := Nat.exists_eq_add_of_le (Nat.le_of_not_lt hk)
    unfold shiftedBlockSize
    rw [hd, Nat.shiftLeft_eq, Nat.pow_add, ← Nat.mul_assoc]
    exact Nat.mul_mod_right (1024 * 2 ^ 22) (2 ^ d)
  · intro hk
    rw [shiftedBlockSize_eq hk]
    exact Nat.ne_of_gt (Nat.pow_pos (by decide))

/-- A buffer behind a read of `n` bytes. -/
theorem stored_range {f : Bytes} {n i : Nat} (hi : i < n) :
    fresh.stored (.ok ((List.range n).map f)) i = f i := by
  show ((List.range n).map f).getD i (fresh i) = f i
  rw [List.getD_eq_getElem _ _ (by simpa using hi)]
  simp

theorem stored_range_of_le {f : Bytes} {n i : Nat} (hi : n ≤ i) :
    fresh.stored (.ok ((List.range n).map f)) i = fresh i := by
  show ((List.range n).map f).getD i (fresh i) = fresh i
  exact List.getD_eq_default _ _ (by simpa using hi)

theorem le_congr {f g : Bytes} {o n : Nat} (h : ∀ i, o ≤ i → i < o + n → f i = g i) :
    le f o n = le g o n := by
  induction n generalizing o with
  | zero => rfl
  | succ n ih =>
      unfold le
      rw [h o (Nat.le_refl o) (by omega), ih fun i hlo hhi => h i (by omega) (by omega)]

/-- The superblock is in the first 90 bytes of its two sectors. -/
theorem readSuperblock_eq {f : Bytes} (h : blockRead 2 2 = .ok ((List.range (2 * 512)).map f)) :
    readSuperblock blockRead freshSuperblock = Superblock.ofBytes f := by
  unfold readSuperblock
  rw [h]
  -- every field is inside what the two sectors brought
  have hle : ∀ o n, o + n ≤ 2 * 512 →
      le (freshSuperblock.stored (.ok ((List.range (2 * 512)).map f))) o n = le f o n :=
    fun o n hn => le_congr fun i _ hi => stored_range (by omega)
  unfold Superblock.ofBytes
  simp only [hle _ _ (show 0 + 4 ≤ 2 * 512 by decide), hle _ _ (show 4 + 4 ≤ 2 * 512 by decide),
    hle _ _ (show 24 + 4 ≤ 2 * 512 by decide), hle _ _ (show 32 + 4 ≤ 2 * 512 by decide),
    hle _ _ (show 40 + 4 ≤ 2 * 512 by decide), hle _ _ (show 56 + 2 ≤ 2 * 512 by decide),
    hle _ _ (show 76 + 4 ≤ 2 * 512 by decide), hle _ _ (show 88 + 2 ≤ 2 * 512 by decide)]

end Divisions

/-! ## §3. Superblocks that trap nowhere. -/

/-- **A robust mount**: it returns with a block size, and so does every `read_inode`. -/
def Robust (blockRead : BlockRead) (fresh freshSuperblock : Bytes) : Prop :=
  ∃ mi, mount blockRead fresh freshSuperblock = .ok (.ok mi) ∧ mi.blockSize ≠ 0
    ∧ ∀ inodeIdx, 1 ≤ inodeIdx → inodeIdx < 2 ^ 32 → ∃ ptr, readInode mi inodeIdx = .ok ptr

/-- The fields of a superblock that can be divided by as they are. -/
structure Superblock.Usable (sb : Superblock) : Prop where
  groupBlockCount : sb.groupBlockCount ≠ 0
  groupInodeCount : sb.groupInodeCount ≠ 0
  blocksSize : sb.blocksSize % 32 < 22
  extInodeSize : sb.extInodeSize ≠ 0
  inodeFits : sb.extInodeSize ≤ 2 ^ (sb.blocksSize % 32 + 10)

section Robust

variable {blockRead : BlockRead} {fresh freshSuperblock : Bytes}

/-- What a mount that returns leaves behind. -/
theorem mount_ok_iff (hsig : (readSuperblock blockRead freshSuperblock).signature = 0xef53)
    {mi : Mounted} :
    mount blockRead fresh freshSuperblock = .ok (.ok mi)
      ↔ (readSuperblock blockRead freshSuperblock).groupBlockCount ≠ 0
        ∧ shiftedBlockSize (readSuperblock blockRead freshSuperblock).blocksSize ≠ 0
        ∧ mi = mountedOf blockRead fresh (readSuperblock blockRead freshSuperblock) := by
  rw [mount_eq hsig]
  by_cases h : (readSuperblock blockRead freshSuperblock).groupBlockCount = 0
      ∨ shiftedBlockSize (readSuperblock blockRead freshSuperblock).blocksSize = 0
  · refine ⟨fun heq => ?_, fun ⟨hgroup, hsize, _⟩ => absurd h (not_or.mpr ⟨hgroup, hsize⟩)⟩
    rw [if_pos h] at heq
    cases heq
  · obtain ⟨hgroup, hsize⟩ := not_or.mp h
    rw [if_neg h]
    constructor
    · intro heq
      exact ⟨hgroup, hsize, (Except.ok.inj (Except.ok.inj heq)).symm⟩
    · rintro ⟨-, -, rfl⟩
      rfl

theorem mountedOf_divisible_iff {sb : Superblock} (hsize : shiftedBlockSize sb.blocksSize ≠ 0) :
    (mountedOf blockRead fresh sb).Divisible
      ↔ sb.groupInodeCount ≠ 0 ∧ sb.extInodeSize ≠ 0
        ∧ sb.extInodeSize ≤ shiftedBlockSize sb.blocksSize :=
  ⟨fun h => ⟨h.groupInodeCount, h.extInodeSize, h.inodeFits⟩,
    fun ⟨hgroup, hinode, hfits⟩ => ⟨hgroup, hsize, hinode, hfits⟩⟩

end Robust

/-- **THE SUPERBLOCKS THAT TRAP NOWHERE.**  With the signature in place and all other
bytes arbitrary, `mount` and every later `read_inode` return, and the block size is not
zero, if and only if the superblock names blocks and inodes to a group, a block size
below `2 ^ 32`, and an inode size that is not zero and no larger than a block. -/
theorem superblock_robust_iff (blockRead : BlockRead) (fresh freshSuperblock : Bytes)
    (hsig : (readSuperblock blockRead freshSuperblock).signature = 0xef53) :
    Robust blockRead fresh freshSuperblock
      ↔ (readSuperblock blockRead freshSuperblock).Usable := by
  constructor
  · rintro ⟨mi, hmount, -, hread⟩
    obtain ⟨hgroup, hsize, rfl⟩ := (mount_ok_iff hsig).mp hmount
    obtain ⟨hinodes, hinode, hfits⟩ := (mountedOf_divisible_iff hsize).mp
      ((readInode_ok_iff 1).mp (hread 1 (Nat.le_refl 1) (by decide)))
    have hk := shiftedBlockSize_ne_zero_iff.mp hsize
    rw [shiftedBlockSize_eq hk] at hfits
    exact ⟨hgroup, hinodes, hk, hinode, hfits⟩
  · intro h
    have hsize := shiftedBlockSize_ne_zero_iff.mpr h.blocksSize
    refine ⟨_, (mount_ok_iff hsig).mpr ⟨h.groupBlockCount, hsize, rfl⟩, hsize, fun i _ _ => ?_⟩
    refine (readInode_ok_iff i).mpr ((mountedOf_divisible_iff hsize).mpr
      ⟨h.groupInodeCount, h.extInodeSize, ?_⟩)
    rw [shiftedBlockSize_eq h.blocksSize]
    exact h.inodeFits

/-- A superblock of 1 KiB blocks in groups of 8192, each with 2048 inodes of this size. -/
def superblockBytes (groups : Nat) (extInodeSize : Byte) : Bytes := fun i =>
  if i < 4 then BitVec.ofNat 8 (2048 * groups / 256 ^ i)
  else if i < 8 then BitVec.ofNat 8 (8192 * groups / 256 ^ (i - 4))
  else
    match i with
    | 33 => 0x20
    | 41 => 0x08
    | 56 => 0x53
    | 57 => 0xef
    | 88 => extInodeSize
    | _ => 0

/-- A device with this superblock, and nothing else on it. -/
def superblockDevice (extInodeSize : Byte) : BlockRead := fun lba count =>
  .ok ((List.range (count * 512)).map fun i =>
    if lba = 2 then superblockBytes 1 extInodeSize i else 0)

theorem readSuperblock_device (extInodeSize : Byte) (freshSuperblock : Bytes) :
    readSuperblock (superblockDevice extInodeSize) freshSuperblock
      = Superblock.ofBytes (superblockBytes 1 extInodeSize) :=
  readSuperblock_eq rfl

theorem superblock_robust_iff_small : Robust (superblockDevice 128) (fun _ => 0) (fun _ => 0) := by
  refine (superblock_robust_iff (superblockDevice 128) (fun _ => 0) (fun _ => 0) ?_).mpr ?_
  · rw [readSuperblock_device]
    decide
  · rw [readSuperblock_device]
    exact ⟨by decide, by decide, by decide, by decide, by decide⟩

/-- A revision 0 superblock has no inode size, and `read_inode` divides by it. -/
theorem revision_zero_divides_by_zero :
    ¬ ∀ (blockRead : BlockRead) (fresh freshSuperblock : Bytes),
      (readSuperblock blockRead freshSuperblock).signature = 0xef53 →
        Robust blockRead fresh freshSuperblock := by
  intro h
  have hsig : (readSuperblock (superblockDevice 0) fun _ => 0).signature = 0xef53 := by
    rw [readSuperblock_device]
    decide
  obtain ⟨mi, hmount, -, hread⟩ := h (superblockDevice 0) (fun _ => 0) (fun _ => 0) hsig
  obtain ⟨-, -, rfl⟩ := (mount_ok_iff hsig).mp hmount
  have hdivisible := (readInode_ok_iff 2).mp (hread 2 (by decide) (by decide))
  refine hdivisible.extInodeSize ?_
  show (readSuperblock (superblockDevice 0) fun _ => 0).extInodeSize = 0
  rw [readSuperblock_device]
  decide

/-! ## §4. Volumes whose group descriptors are all read. -/

/-- The block behind which the group descriptor table begins. -/
def Superblock.firstDataBlock (sb : Superblock) : Nat := if sb.blocksSize = 0 then 1 else 0

/-- The block groups of a volume. -/
def Superblock.volumeGroups (sb : Superblock) : Nat :=
  ceilDiv (sb.totalBlocks - sb.firstDataBlock) sb.groupBlockCount

/-- The superblock of a volume. -/
def volumeSuperblock (device : Bytes) : Superblock := Superblock.ofBytes fun i => device (1024 + i)

/-- **A valid volume**: the groups cover its blocks, and each of them has its inodes. -/
structure ValidVolume (device : Bytes) : Prop where
  signature : (volumeSuperblock device).signature = 0xef53
  blocksSize : (volumeSuperblock device).blocksSize < 22
  groupBlockCount : 0 < (volumeSuperblock device).groupBlockCount
  groupInodeCount : 0 < (volumeSuperblock device).groupInodeCount
  totalInodes : (volumeSuperblock device).totalInodes
    = (volumeSuperblock device).groupInodeCount * (volumeSuperblock device).volumeGroups

/-- `block_read` reads all it is asked for. -/
def Fills (device : Bytes) (blockRead : BlockRead) : Prop :=
  ∀ lba count, blockRead lba count
    = .ok ((List.range (count * 512)).map fun i => device (lba * 512 + i))

/-- Byte `j` of the descriptor of group `g`, on the disk. -/
def descriptorByte (device : Bytes) (g j : Nat) : Byte :=
  let sb := volumeSuperblock device
  device ((sb.firstDataBlock + 1) * shiftedBlockSize sb.blocksSize + (32 * g + j))

/-- Every descriptor in `block_groups` is the one on the disk. -/
def DescriptorsRead (device : Bytes) (mi : Mounted) : Prop :=
  ∀ g < mi.blockGroupCount, ∀ j < 32, mi.blockGroups (32 * g + j) = descriptorByte device g j

/-- Every inode number of the volume selects one of its groups. -/
def InodesInside (device : Bytes) (mi : Mounted) : Prop :=
  (volumeSuperblock device).volumeGroups ≤ mi.blockGroupCount
    ∧ ∀ i, 1 ≤ i → i ≤ (volumeSuperblock device).totalInodes →
      ∃ g, mi.getInodeGroup i = .ok g ∧ g < (volumeSuperblock device).volumeGroups

/-- **The mounted volume**: its descriptors, and its inodes among them. -/
def Describes (device : Bytes) (blockRead : BlockRead) (fresh freshSuperblock : Bytes) : Prop :=
  ∃ mi, mount blockRead fresh freshSuperblock = .ok (.ok mi)
    ∧ DescriptorsRead device mi ∧ InodesInside device mi

section Volume

variable {device fresh freshSuperblock : Bytes} {blockRead : BlockRead} {a b c : Nat}

theorem ceilDiv_le_iff (hb : 0 < b) : ceilDiv a b ≤ c ↔ a ≤ c * b := by
  have hdiv := Nat.div_add_mod' a b
  have hmod := Nat.mod_lt a hb
  unfold ceilDiv
  by_cases hrest : a % b = 0
  · rw [if_pos hrest, Nat.add_zero, ← Nat.mul_le_mul_right_iff hb]
    omega
  · rw [if_neg hrest]
    constructor
    · intro h
      have := Nat.mul_le_mul_right b h
      rw [Nat.add_mul, Nat.one_mul] at this
      omega
    · intro h
      by_contra hlt
      have := Nat.mul_le_mul_right b (show c ≤ a / b by omega)
      omega

theorem ceilDiv_mono (hb : 0 < b) (h : a ≤ c) : ceilDiv a b ≤ ceilDiv c b :=
  (ceilDiv_le_iff hb).mpr (Nat.le_trans h ((ceilDiv_le_iff hb).mp (Nat.le_refl _)))

/-- An integer of `n` bytes. -/
theorem le_lt (f : Bytes) (o n : Nat) : le f o n < 256 ^ n := by
  induction n generalizing o with
  | zero => exact Nat.one_pos
  | succ n ih =>
      have hbyte := (f o).isLt
      have hrest := ih (o + 1)
      unfold le
      rw [Nat.pow_succ]
      omega

/-- The count of the code is a count of 32 bits that does not wrap. -/
theorem groupCount_eq (hgroup : 0 < (volumeSuperblock device).groupBlockCount) :
    (volumeSuperblock device).groupCount
      = ceilDiv (volumeSuperblock device).totalBlocks (volumeSuperblock device).groupBlockCount := by
  have htotal : (volumeSuperblock device).totalBlocks < 2 ^ 32 :=
    le_lt (fun i => device (1024 + i)) 4 4
  have hle := (ceilDiv_le_iff hgroup).mpr
    (Nat.le_mul_of_pos_right (volumeSuperblock device).totalBlocks hgroup)
  exact Nat.mod_eq_of_lt (Nat.lt_of_le_of_lt hle htotal)

theorem Fills.readSuperblock (hfills : Fills device blockRead) :
    readSuperblock blockRead freshSuperblock = volumeSuperblock device :=
  readSuperblock_eq (hfills 2 2)

/-- A valid volume is mounted. -/
theorem ValidVolume.mount (h : ValidVolume device) (hfills : Fills device blockRead) :
    mount blockRead fresh freshSuperblock
      = .ok (.ok (mountedOf blockRead fresh (volumeSuperblock device))) := by
  have hsb : Ext2.readSuperblock blockRead freshSuperblock = _ := hfills.readSuperblock
  have hk := h.blocksSize
  refine (mount_ok_iff (hsb ▸ h.signature)).mpr ?_
  rw [hsb]
  exact ⟨Nat.ne_of_gt h.groupBlockCount, shiftedBlockSize_ne_zero_iff.mpr (by omega), rfl⟩

/-- **The inodes are inside.** -/
theorem ValidVolume.inodesInside (h : ValidVolume device) :
    InodesInside device (mountedOf blockRead fresh (volumeSuperblock device)) := by
  constructor
  · show _ ≤ (volumeSuperblock device).groupCount
    rw [groupCount_eq h.groupBlockCount]
    exact ceilDiv_mono h.groupBlockCount (Nat.sub_le _ _)
  · intro i hi htotal
    have h32 : (volumeSuperblock device).totalInodes < 2 ^ 32 :=
      le_lt (fun i => device (1024 + i)) 0 4
    refine ⟨_, divide_ok (Nat.ne_of_gt h.groupInodeCount), ?_⟩
    -- `inode_idx - 1` on 32 bits, from 1 on
    rw [show i + (2 ^ 32 - 1) = i - 1 + 2 ^ 32 by omega, Nat.add_mod_right,
      Nat.mod_eq_of_lt (by omega)]
    show (i - 1) / (volumeSuperblock device).groupInodeCount < _
    rw [Nat.div_lt_iff_lt_mul h.groupInodeCount, Nat.mul_comm, ← h.totalInodes]
    omega

/-- The block size, without the modulus of the shift. -/
theorem ValidVolume.blockSize_eq (h : ValidVolume device) :
    shiftedBlockSize (volumeSuperblock device).blocksSize
      = 2 ^ ((volumeSuperblock device).blocksSize + 10) := by
  have hk := h.blocksSize
  have hmod : (volumeSuperblock device).blocksSize % 32 = (volumeSuperblock device).blocksSize :=
    Nat.mod_eq_of_lt (by omega)
  rw [shiftedBlockSize_eq (by omega), hmod]

theorem ValidVolume.sectors_dvd (h : ValidVolume device) :
    512 ∣ shiftedBlockSize (volumeSuperblock device).blocksSize := by
  rw [h.blockSize_eq, show (512 : Nat) = 2 ^ 9 from rfl]
  exact Nat.pow_dvd_pow 2 (by omega)

/-- The table begins at a sector that `get_lba` gets right. -/
theorem ValidVolume.tableLba (h : ValidVolume device) :
    let mi := allocatedOf fresh (volumeSuperblock device)
    mi.getLba (mi.getGroupDescriptorBlock 0) * 512
      = ((volumeSuperblock device).firstDataBlock + 1) * mi.blockSize := by
  intro mi
  have hk := h.blocksSize
  have hsize : mi.blockSize = _ := h.blockSize_eq
  have hblock : mi.getGroupDescriptorBlock 0 = (volumeSuperblock device).firstDataBlock + 1 := by
    show ((volumeSuperblock device).groupBlockCount * 0
      + if (volumeSuperblock device).blocksSize = 0 then 2 else 1) % 2 ^ 32 = _
    unfold Superblock.firstDataBlock
    rw [Nat.mul_zero, Nat.zero_add]
    split <;> rfl
  -- the table begins at byte 2048, or behind the first block
  have hsmall : ((volumeSuperblock device).firstDataBlock + 1) * mi.blockSize < 2 ^ 32 := by
    unfold Superblock.firstDataBlock
    by_cases h0 : (volumeSuperblock device).blocksSize = 0
    · rw [if_pos h0, hsize, h0]
      decide
    · rw [if_neg h0, hsize, Nat.zero_add, Nat.one_mul]
      exact Nat.pow_lt_pow_right (by decide) (by omega)
  unfold Mounted.getLba
  rw [hblock, Nat.mod_eq_of_lt hsmall]
  exact Nat.div_mul_cancel (Dvd.dvd.mul_left h.sectors_dvd _)

/-- **One block of the table is read.** -/
theorem ValidVolume.blockGroups_eq (h : ValidVolume device) (hfills : Fills device blockRead)
    {g j : Nat} (hj : j < 32) :
    (mountedOf blockRead fresh (volumeSuperblock device)).blockGroups (32 * g + j)
      = if 32 * g < shiftedBlockSize (volumeSuperblock device).blocksSize
        then descriptorByte device g j else fresh (32 * g + j) := by
  have hdvd := h.sectors_dvd
  have hsectors := Nat.div_mul_cancel hdvd
  show fresh.stored (blockRead ((allocatedOf fresh (volumeSuperblock device)).getLba _)
    (shiftedBlockSize (volumeSuperblock device).blocksSize / 512)) (32 * g + j) = _
  rw [hfills, h.tableLba, hsectors]
  by_cases hin : 32 * g < shiftedBlockSize (volumeSuperblock device).blocksSize
  · -- a descriptor that begins in the block ends in it
    rw [if_pos hin, stored_range (by omega)]
    rfl
  · rw [if_neg hin, stored_range_of_le (by omega)]

theorem ValidVolume.descriptorsRead_iff (h : ValidVolume device)
    (hfills : Fills device blockRead) :
    DescriptorsRead device (mountedOf blockRead fresh (volumeSuperblock device))
      ↔ ∀ g < (volumeSuperblock device).groupCount,
          shiftedBlockSize (volumeSuperblock device).blocksSize ≤ 32 * g →
            ∀ j < 32, fresh (32 * g + j) = descriptorByte device g j := by
  constructor
  · intro hread g hg hout j hj
    have := hread g hg j hj
    rw [h.blockGroups_eq hfills hj, if_neg (Nat.not_lt.mpr hout)] at this
    exact this
  · intro hfresh g hg j hj
    rw [h.blockGroups_eq hfills hj]
    by_cases hin : 32 * g < shiftedBlockSize (volumeSuperblock device).blocksSize
    · rw [if_pos hin]
    · rw [if_neg hin]
      exact hfresh g hg (Nat.le_of_not_lt hin) j hj

end Volume

/-- **THE VOLUMES WHOSE DESCRIPTORS ARE READ.**  On a valid volume of any size and block
size the inodes select groups of the volume, and `block_groups` has the descriptors of
the disk, if and only if those behind the first block of the table are in the fresh
pages by chance; whatever the pages hold, if and only if the table fits into one
block. -/
theorem group_descriptors_iff {device : Bytes} {blockRead : BlockRead}
    (hvolume : ValidVolume device) (hfills : Fills device blockRead) (freshSuperblock : Bytes) :
    let sb := volumeSuperblock device
    (∀ fresh, Describes device blockRead fresh freshSuperblock
        ↔ ∀ g < sb.groupCount, shiftedBlockSize sb.blocksSize ≤ 32 * g →
            ∀ j < 32, fresh (32 * g + j) = descriptorByte device g j)
      ∧ ((∀ fresh, Describes device blockRead fresh freshSuperblock)
        ↔ 32 * sb.groupCount ≤ shiftedBlockSize sb.blocksSize) := by
  intro sb
  have hiff : ∀ fresh, Describes device blockRead fresh freshSuperblock
      ↔ ∀ g < sb.groupCount, shiftedBlockSize sb.blocksSize ≤ 32 * g →
          ∀ j < 32, fresh (32 * g + j) = descriptorByte device g j := by
    intro fresh
    -- the mount has only one result, and its inodes are inside
    rw [← hvolume.descriptorsRead_iff hfills]
    constructor
    · rintro ⟨mi, hmount, hread, -⟩
      rw [hvolume.mount hfills] at hmount
      exact Except.ok.inj (Except.ok.inj hmount) ▸ hread
    · exact fun hread => ⟨_, hvolume.mount hfills, hread, hvolume.inodesInside⟩
  refine ⟨hiff, fun hall => ?_, fun hfits fresh => (hiff fresh).mpr fun g hg hout => ?_⟩
  · by_contra hlarge
    -- the first descriptor behind the block, and pages that hold something else there
    obtain ⟨m, hm⟩ : 512 ∣ shiftedBlockSize sb.blocksSize := hvolume.sectors_dvd
    have hmark : ~~~ descriptorByte device (16 * m) 0 = descriptorByte device (16 * m) 0 :=
      (hiff fun _ => ~~~ descriptorByte device (16 * m) 0).mp (hall _) (16 * m) (by omega)
        (by omega) 0 (by decide)
    generalize descriptorByte device (16 * m) 0 = b at hmark
    revert b
    decide
  · omega

/-- A volume with this superblock, and nothing else on it. -/
def volumeOf (groups : Nat) : Bytes := fun i =>
  if 1024 ≤ i then superblockBytes groups 128 (i - 1024) else 0

theorem volumeSuperblock_volumeOf (groups : Nat) :
    volumeSuperblock (volumeOf groups) = Superblock.ofBytes (superblockBytes groups 128) := by
  unfold volumeSuperblock volumeOf
  simp only [Nat.le_add_right, if_true, Nat.add_sub_cancel_left]

/-- The reads of a device that fills every request. -/
def fullRead (device : Bytes) : BlockRead := fun lba count =>
  .ok ((List.range (count * 512)).map fun i => device (lba * 512 + i))

theorem validVolume_one : ValidVolume (volumeOf 1) := by
  constructor <;> rw [volumeSuperblock_volumeOf] <;> decide

theorem validVolume_many : ValidVolume (volumeOf 33) := by
  constructor <;> rw [volumeSuperblock_volumeOf] <;> decide

theorem group_descriptors_iff_one :
    Describes (volumeOf 1) (fullRead (volumeOf 1)) (fun _ => 1) fun _ => 0 := by
  refine (group_descriptors_iff validVolume_one (fun _ _ => rfl) fun _ => 0).2.mpr ?_ fun _ => 1
  rw [volumeSuperblock_volumeOf]
  decide

/-- The descriptor of group 32 is not read, and the fresh pages hold something else. -/
theorem descriptor_behind_block_missed :
    ¬ ∀ (device : Bytes) (blockRead : BlockRead) (fresh freshSuperblock : Bytes),
      ValidVolume device → Fills device blockRead →
        Describes device blockRead fresh freshSuperblock := by
  intro h
  have hfills : Fills (volumeOf 33) (fullRead (volumeOf 33)) := fun _ _ => rfl
  obtain ⟨mi, hmount, hread, -⟩ := h (volumeOf 33) (fullRead (volumeOf 33)) (fun _ => 1)
    (fun _ => 0) validVolume_many hfills
  rw [validVolume_many.mount hfills] at hmount
  have hread : DescriptorsRead (volumeOf 33) _ := Except.ok.inj (Except.ok.inj hmount) ▸ hread
  have hone := (validVolume_many.descriptorsRead_iff hfills).mp hread 32
    (by rw [volumeSuperblock_volumeOf]; decide) (by rw [volumeSuperblock_volumeOf]; decide) 0
    (by decide)
  unfold descriptorByte at hone
  rw [volumeSuperblock_volumeOf] at hone
  exact absurd hone (by decide)

end MierOS.Ext2
