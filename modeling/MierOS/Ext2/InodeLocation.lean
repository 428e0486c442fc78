/-
  MierOS.Ext2.InodeLocation
  **WHERE AN INODE IS READ FROM**: the block and the offset that `read_inode` computes.

  The block comes from the index within the group, the offset from the number of the inode
  on the whole volume.  The two agree because a group holds whole blocks of inodes.  Every
  number has 32 bits, and the sum of the table's first block and the block within the
  table is the one that may wrap.

  Main results: `readInode_eq`, `inode_location`.
-/
import MierOS.Ext2.Mount

namespace MierOS.Ext2

/-! ## §1. Volumes with whole blocks of inodes. -/

/-- **The layout of the inodes**: blocks of 1 to 64 KiB that hold whole inodes of at most 4
KiB, and groups of whole blocks of inodes, as many as the bits of one block can count. -/
structure Mounted.InodeLayout (mi : Mounted) : Prop where
  blocksSize : mi.superblock.blocksSize ≤ 6
  blockSize : mi.blockSize = 1024 <<< mi.superblock.blocksSize
  inodeSize_dvd : mi.superblock.extInodeSize ∣ mi.blockSize
  inodeSize_le : mi.superblock.extInodeSize ≤ 4096
  groupInodeCount_pos : 0 < mi.superblock.groupInodeCount
  groupInodeCount_dvd : mi.blockSize / mi.superblock.extInodeSize ∣ mi.superblock.groupInodeCount
  groupInodeCount_le : mi.superblock.groupInodeCount ≤ 8 * mi.blockSize

/-- The group of an inode. -/
def Mounted.groupOf (mi : Mounted) (inode : Nat) : Nat := (inode - 1) / mi.superblock.groupInodeCount

/-- The index of an inode in its group. -/
def Mounted.localIndex (mi : Mounted) (inode : Nat) : Nat :=
  (inode - 1) % mi.superblock.groupInodeCount

/-- The place of an inode in the table of its group, in bytes. -/
def Mounted.tableOffset (mi : Mounted) (inode : Nat) : Nat :=
  mi.localIndex inode * mi.superblock.extInodeSize

/-- The byte that a block and an offset address. -/
def Mounted.address (mi : Mounted) (ptr : INodePtr) : Nat := ptr.block * mi.blockSize + ptr.offset

/-- Two inodes that share no byte. -/
def Mounted.Disjoint (mi : Mounted) (ptr ptr' : INodePtr) : Prop :=
  ptr.block ≠ ptr'.block ∨ ptr.offset + mi.superblock.extInodeSize ≤ ptr'.offset
    ∨ ptr'.offset + mi.superblock.extInodeSize ≤ ptr.offset

namespace Mounted.InodeLayout

variable {mi : Mounted} {inode : Nat}

/-! ## §2. The numbers of a layout. -/

theorem blockSize_bounds (h : mi.InodeLayout) : 0 < mi.blockSize ∧ mi.blockSize ≤ 65536 := by
  rw [h.blockSize, Nat.shiftLeft_eq]
  have hpow : 2 ^ mi.superblock.blocksSize ≤ 2 ^ 6 := Nat.pow_le_pow_right (by decide) h.blocksSize
  have hpos : 0 < 2 ^ mi.superblock.blocksSize := Nat.pow_pos (by decide)
  omega

theorem inodeSize_pos (h : mi.InodeLayout) : 0 < mi.superblock.extInodeSize :=
  Nat.pos_of_dvd_of_pos h.inodeSize_dvd h.blockSize_bounds.1

/-- A block is its inodes, one behind the other. -/
theorem blockSize_eq_mul (h : mi.InodeLayout) :
    mi.blockSize / mi.superblock.extInodeSize * mi.superblock.extInodeSize = mi.blockSize :=
  Nat.div_mul_cancel h.inodeSize_dvd

theorem inodesPerBlock_pos (h : mi.InodeLayout) :
    0 < mi.blockSize / mi.superblock.extInodeSize :=
  Nat.div_pos (Nat.le_of_dvd h.blockSize_bounds.1 h.inodeSize_dvd) h.inodeSize_pos

theorem localIndex_lt (h : mi.InodeLayout) (inode : Nat) :
    mi.localIndex inode < mi.superblock.groupInodeCount := Nat.mod_lt _ h.groupInodeCount_pos

/-- **The product does not wrap.** -/
theorem tableOffset_lt (h : mi.InodeLayout) (inode : Nat) : mi.tableOffset inode < 2 ^ 32 := by
  have hlocal : mi.localIndex inode ≤ 8 * 65536 :=
    Nat.le_trans (Nat.le_of_lt (h.localIndex_lt inode))
      (Nat.le_trans h.groupInodeCount_le (Nat.mul_le_mul_left 8 h.blockSize_bounds.2))
  calc mi.tableOffset inode ≤ 8 * 65536 * 4096 := Nat.mul_le_mul hlocal h.inodeSize_le
    _ < 2 ^ 32 := by decide

/-- The block of the table that an inode is in. -/
theorem tableOffset_div (h : mi.InodeLayout) (inode : Nat) :
    mi.tableOffset inode / mi.blockSize
      = mi.localIndex inode / (mi.blockSize / mi.superblock.extInodeSize) := by
  unfold tableOffset
  conv_lhs => rw [← h.blockSize_eq_mul]
  exact Nat.mul_div_mul_right _ _ h.inodeSize_pos

/-- **The two indices agree within a block**: a group is a whole number of blocks. -/
theorem slot_eq (h : mi.InodeLayout) (inode : Nat) :
    (inode - 1) % (mi.blockSize / mi.superblock.extInodeSize)
      = mi.localIndex inode % (mi.blockSize / mi.superblock.extInodeSize) :=
  (Nat.mod_mod_of_dvd (inode - 1) h.groupInodeCount_dvd).symm

/-- The slot of an inode in its block, in bytes. -/
theorem slot_mul_eq (h : mi.InodeLayout) (inode : Nat) :
    mi.localIndex inode % (mi.blockSize / mi.superblock.extInodeSize) * mi.superblock.extInodeSize
      = mi.tableOffset inode % mi.blockSize := by
  unfold tableOffset
  conv_rhs => rw [← h.blockSize_eq_mul]
  exact (Nat.mul_mod_mul_right _ _ _).symm

theorem slot_le (h : mi.InodeLayout) (inode : Nat) :
    mi.tableOffset inode % mi.blockSize + mi.superblock.extInodeSize ≤ mi.blockSize := by
  have hlt := Nat.mod_lt (mi.localIndex inode) h.inodesPerBlock_pos
  calc mi.tableOffset inode % mi.blockSize + mi.superblock.extInodeSize
      = (mi.localIndex inode % (mi.blockSize / mi.superblock.extInodeSize) + 1)
          * mi.superblock.extInodeSize := by rw [← h.slot_mul_eq, Nat.succ_mul]
    _ ≤ mi.blockSize / mi.superblock.extInodeSize * mi.superblock.extInodeSize :=
        Nat.mul_le_mul_right _ hlt
    _ = mi.blockSize := h.blockSize_eq_mul

/-! ## §3. What `read_inode` computes. -/

/-- **Block and offset.** -/
theorem readInode_eq (h : mi.InodeLayout) (hpos : 1 ≤ inode) (hlt : inode < 2 ^ 32) :
    readInode mi inode = .ok
      ⟨(mi.tableOffset inode / mi.blockSize + mi.inodeTable (mi.groupOf inode)) % 2 ^ 32,
        mi.tableOffset inode % mi.blockSize⟩ := by
  have hindex : (inode + (2 ^ 32 - 1)) % 2 ^ 32 = inode - 1 := by omega
  have hgroup : mi.superblock.groupInodeCount ≠ 0 := Nat.ne_of_gt h.groupInodeCount_pos
  have hblock : mi.blockSize ≠ 0 := Nat.ne_of_gt h.blockSize_bounds.1
  have hinode : mi.superblock.extInodeSize ≠ 0 := Nat.ne_of_gt h.inodeSize_pos
  have hper : mi.blockSize / mi.superblock.extInodeSize ≠ 0 := Nat.ne_of_gt h.inodesPerBlock_pos
  have hproduct : mi.localIndex inode * mi.superblock.extInodeSize % 2 ^ 32
      = mi.tableOffset inode := Nat.mod_eq_of_lt (h.tableOffset_lt inode)
  have hoffset : mi.tableOffset inode % mi.blockSize % 2 ^ 32
      = mi.tableOffset inode % mi.blockSize :=
    Nat.mod_eq_of_lt (Nat.lt_of_lt_of_le (Nat.mod_lt _ h.blockSize_bounds.1)
      (Nat.le_trans h.blockSize_bounds.2 (by decide)))
  have hslot : (inode - 1) % (mi.blockSize / mi.superblock.extInodeSize)
      * mi.superblock.extInodeSize % 2 ^ 32 = mi.tableOffset inode % mi.blockSize := by
    rw [h.slot_eq, h.slot_mul_eq, hoffset]
  unfold readInode Mounted.getInodeGroup Mounted.getInodeTableBlock Mounted.getInodeLocalIndex
  rw [hindex, divide_ok hgroup, remainder_ok hgroup, divide_ok hinode]
  show (do
    let inodeBlock ← divide (mi.localIndex inode * mi.superblock.extInodeSize % 2 ^ 32) mi.blockSize
    let inodeSlot ← remainder (inode - 1) (mi.blockSize / mi.superblock.extInodeSize)
    Except.ok (INodePtr.mk ((inodeBlock + mi.inodeTable (mi.groupOf inode)) % 2 ^ 32)
      (inodeSlot * mi.superblock.extInodeSize % 2 ^ 32))) = _
  rw [hproduct, divide_ok hblock, remainder_ok hper]
  show Except.ok (INodePtr.mk _ ((inode - 1) % (mi.blockSize / mi.superblock.extInodeSize)
    * mi.superblock.extInodeSize % 2 ^ 32)) = _
  rw [hslot]

/-! ## §4. The bytes of the inodes. -/

/-- The block within the table has 32 bits. -/
theorem tableBlock_lt (h : mi.InodeLayout) (inode : Nat) :
    mi.tableOffset inode / mi.blockSize < 2 ^ 32 :=
  Nat.lt_of_le_of_lt (Nat.div_le_self _ _) (h.tableOffset_lt inode)

/-- **The byte that is addressed** is that of the table, unless the block number wraps. -/
theorem address_eq_iff (h : mi.InodeLayout) (inode table : Nat) :
    mi.address ⟨(mi.tableOffset inode / mi.blockSize + table) % 2 ^ 32,
        mi.tableOffset inode % mi.blockSize⟩ = table * mi.blockSize + mi.tableOffset inode
      ↔ table + mi.tableOffset inode / mi.blockSize < 2 ^ 32 := by
  have hblock := h.blockSize_bounds.1
  have hlt := h.tableBlock_lt inode
  have hsplit := Nat.div_add_mod (mi.tableOffset inode) mi.blockSize
  unfold Mounted.address
  generalize mi.tableOffset inode / mi.blockSize = q at hlt hsplit ⊢
  -- both sides are a number of blocks and the same rest
  have hright : table * mi.blockSize + mi.tableOffset inode
      = (q + table) * mi.blockSize + mi.tableOffset inode % mi.blockSize := by
    rw [Nat.add_mul, Nat.mul_comm q]
    omega
  rw [hright]
  constructor
  · intro heq
    have hmul : (q + table) % 2 ^ 32 * mi.blockSize = (q + table) * mi.blockSize :=
      Nat.add_right_cancel heq
    have hsame := Nat.eq_of_mul_eq_mul_right hblock hmul
    omega
  · intro hfits
    rw [Nat.mod_eq_of_lt (show q + table < 2 ^ 32 by omega)]

/-- Two inodes of a group have different indices in it. -/
theorem localIndex_ne {other : Nat} (hpos : 1 ≤ inode) (hother : 1 ≤ other) (hne : other ≠ inode)
    (hgroup : mi.groupOf other = mi.groupOf inode) : mi.localIndex inode ≠ mi.localIndex other := by
  intro heq
  have hinode := Nat.div_add_mod (inode - 1) mi.superblock.groupInodeCount
  have hothers := Nat.div_add_mod (other - 1) mi.superblock.groupInodeCount
  unfold Mounted.groupOf at hgroup
  unfold Mounted.localIndex at heq
  rw [← hgroup, heq, hothers] at hinode
  omega

/-- **Inodes of a group do not overlap**, wherever its table is. -/
theorem disjoint (h : mi.InodeLayout) {i j : Nat} (hne : mi.localIndex i ≠ mi.localIndex j)
    (table : Nat) :
    mi.Disjoint
      ⟨(mi.tableOffset i / mi.blockSize + table) % 2 ^ 32, mi.tableOffset i % mi.blockSize⟩
      ⟨(mi.tableOffset j / mi.blockSize + table) % 2 ^ 32, mi.tableOffset j % mi.blockSize⟩ := by
  by_cases hblocks : mi.tableOffset i / mi.blockSize = mi.tableOffset j / mi.blockSize
  · -- in one block they have different slots
    refine Or.inr ?_
    rw [h.tableOffset_div, h.tableOffset_div] at hblocks
    have hi := Nat.div_add_mod (mi.localIndex i) (mi.blockSize / mi.superblock.extInodeSize)
    have hj := Nat.div_add_mod (mi.localIndex j) (mi.blockSize / mi.superblock.extInodeSize)
    have hslots : mi.localIndex i % (mi.blockSize / mi.superblock.extInodeSize)
        ≠ mi.localIndex j % (mi.blockSize / mi.superblock.extInodeSize) := by
      intro hslots
      rw [hblocks, hslots] at hi
      exact hne (hi.symm.trans hj)
    dsimp only
    rw [← h.slot_mul_eq, ← h.slot_mul_eq, ← Nat.succ_mul, ← Nat.succ_mul]
    rcases Nat.lt_or_gt_of_ne hslots with hlt | hgt
    · exact Or.inl (Nat.mul_le_mul_right _ hlt)
    · exact Or.inr (Nat.mul_le_mul_right _ hgt)
  · refine Or.inl fun heq => hblocks ?_
    have hi := h.tableBlock_lt i
    have hj := h.tableBlock_lt j
    dsimp only at heq
    generalize mi.tableOffset i / mi.blockSize = p at hi heq ⊢
    generalize mi.tableOffset j / mi.blockSize = q at hj heq ⊢
    omega

end Mounted.InodeLayout

/-- **WHERE AN INODE IS.**  For every layout and every inode number from 1 on: the product
of index and size does not wrap; `read_inode` returns with a block and an offset that
address the byte of the inode in the table of its group, exactly when the number of that
block is below `2 ^ 32`; the inode ends inside its block; and it shares no byte with
another inode of the group. -/
theorem inode_location {mi : Mounted} (h : mi.InodeLayout) {inode : Nat} (hpos : 1 ≤ inode)
    (hlt : inode < 2 ^ 32) :
    mi.localIndex inode * mi.superblock.extInodeSize < 2 ^ 32
      ∧ ∃ ptr, readInode mi inode = .ok ptr
        ∧ (mi.address ptr = mi.inodeTable (mi.groupOf inode) * mi.blockSize
              + mi.localIndex inode * mi.superblock.extInodeSize
            ↔ mi.inodeTable (mi.groupOf inode)
                + mi.localIndex inode * mi.superblock.extInodeSize / mi.blockSize < 2 ^ 32)
        ∧ ptr.offset + mi.superblock.extInodeSize ≤ mi.blockSize
        ∧ ∀ other ptr', 1 ≤ other → other < 2 ^ 32 → other ≠ inode →
            mi.groupOf other = mi.groupOf inode → readInode mi other = .ok ptr' →
            mi.Disjoint ptr ptr' := by
  refine ⟨h.tableOffset_lt inode, _, h.readInode_eq hpos hlt,
    h.address_eq_iff inode _, h.slot_le inode, ?_⟩
  intro other ptr' hother hotherLt hne hgroup hread
  rw [h.readInode_eq hother hotherLt, hgroup] at hread
  obtain rfl := Except.ok.inj hread
  exact h.disjoint (Mounted.InodeLayout.localIndex_ne hpos hother hne hgroup) _

/-- A volume of blocks of 1 KiB with eight inodes each, two blocks of them to a group; the
descriptors hold this byte everywhere. -/
def smallLayout (b : Byte) : Mounted where
  superblock := ⟨32, 16384, 0, 8192, 16, 0xef53, 1, 128⟩
  blockGroupCount := 2
  blockSize := 1024
  sbExt := true
  blockGroupsLength := 32
  blockGroups := fun _ => b

theorem smallLayout_layout (b : Byte) : (smallLayout b).InodeLayout where
  blocksSize := by show 0 ≤ 6; decide
  blockSize := rfl
  inodeSize_dvd := ⟨8, rfl⟩
  inodeSize_le := by show 128 ≤ 4096; decide
  groupInodeCount_pos := by show 0 < 16; decide
  groupInodeCount_dvd := by show 1024 / 128 ∣ 16; decide
  groupInodeCount_le := by show 16 ≤ 8 * 1024; decide

/-- The ninth inode, with the table at the block 0. -/
theorem inode_location_ninth :
    ∃ ptr, readInode (smallLayout 0) 9 = .ok ptr ∧ (smallLayout 0).address ptr = 1024 := by
  obtain ⟨-, ptr, hread, haddress, -⟩ :=
    @inode_location _ (smallLayout_layout 0) 9 (by decide) (by decide)
  exact ⟨ptr, hread, haddress.mpr (by decide)⟩

/-- **A table at the last block number**: the second block of it wraps to the block 0. -/
theorem inode_table_wraps :
    ¬ ∀ mi : Mounted, mi.InodeLayout → ∀ inode, 1 ≤ inode → inode < 2 ^ 32 →
      ∃ ptr, readInode mi inode = .ok ptr
        ∧ mi.address ptr = mi.inodeTable (mi.groupOf inode) * mi.blockSize
            + mi.localIndex inode * mi.superblock.extInodeSize := by
  intro hclaim
  obtain ⟨ptr, hread, haddress⟩ := hclaim (smallLayout 0xFF) (smallLayout_layout 0xFF) 9 (by decide)
    (by decide)
  rw [(smallLayout_layout 0xFF).readInode_eq (by decide) (by decide)] at hread
  obtain rfl := Except.ok.inj hread
  have hfits := ((smallLayout_layout 0xFF).address_eq_iff 9 _).mp haddress
  exact absurd hfits (by decide)

end MierOS.Ext2
