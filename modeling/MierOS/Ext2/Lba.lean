/-
  MierOS.Ext2.Lba
  **BLOCK ADDRESSES**: `MountInfo::get_lba` of `mount_info.hpp`.

  The product of the block number and the block size is formed in 32 bits and widened
  afterwards, so it is exact on the first 4 GiB of a volume and wraps behind them.

  Main result: `get_lba_iff`.
-/
import MierOS.Ext2.Rw

namespace MierOS.Ext2

/-! ## §1. The sectors of a block. -/

/-- Sector `s` is one of those that are read for `block`. -/
def MountInfo.SectorOf (mi : MountInfo) (block s : Nat) : Prop :=
  mi.getLba block ≤ s ∧ s < mi.getLba block + mi.blockSize / 512

/-- The address of this block is exact. -/
def MountInfo.LbaExact (mi : MountInfo) (block : Nat) : Prop :=
  mi.getLba block = block * (mi.blockSize / 512)

/-- Different blocks of the first `n` have no sector in common. -/
def MountInfo.SectorsApart (mi : MountInfo) (n : Nat) : Prop :=
  ∀ b < n, ∀ b' < n, b ≠ b' → ∀ s, mi.SectorOf b s → ¬ mi.SectorOf b' s

section Lba

variable {mi : MountInfo} {block n : Nat}

/-- A block has two sectors or more. -/
theorem sectors_pos (mi : MountInfo) : 0 < mi.blockSize / 512 := by
  have hpos := blockSize_pos mi
  have hsectors := blockSize_sectors mi
  omega

/-- The first 4 GiB are a whole number of blocks. -/
theorem blockSize_dvd (mi : MountInfo) : mi.blockSize ∣ 2 ^ 32 := by
  have hk := mi.blocksSize_lt
  rw [blockSize_eq]
  exact Nat.pow_dvd_pow 2 (by omega)

/-- The sectors of the blocks before this one. -/
theorem mul_sectors (mi : MountInfo) (block : Nat) :
    block * (mi.blockSize / 512) = block * mi.blockSize / 512 := by
  have hsectors := blockSize_sectors mi
  calc block * (mi.blockSize / 512)
      = block * (mi.blockSize / 512) * 512 / 512 := (Nat.mul_div_cancel _ (by decide)).symm
    _ = block * mi.blockSize / 512 := by rw [Nat.mul_assoc, hsectors]

/-- **One block**: its address is exact when its first byte is below 4 GiB. -/
theorem lbaExact_iff : mi.LbaExact block ↔ block * mi.blockSize < 2 ^ 32 := by
  unfold MountInfo.LbaExact MountInfo.getLba
  rw [mul_sectors]
  constructor
  · intro h
    -- what is left of the product modulo `2 ^ 32` is at most `2 ^ 23` sectors
    by_contra hlarge
    have hmod := Nat.mod_lt (block * mi.blockSize) (show 0 < 2 ^ 32 by decide)
    have hwrap : block * mi.blockSize % 2 ^ 32 / 512 < 2 ^ 23 := by
      rw [Nat.div_lt_iff_lt_mul (by decide)]
      exact hmod
    have hfar : 2 ^ 23 ≤ block * mi.blockSize / 512 := by
      rw [Nat.le_div_iff_mul_le (by decide)]
      omega
    omega
  · intro h
    rw [Nat.mod_eq_of_lt h]

/-- A larger volume has a block that begins at 4 GiB. -/
theorem exists_block_at (hlarge : 2 ^ 32 < n * mi.blockSize) :
    ∃ q, q < n ∧ q * mi.blockSize = 2 ^ 32 := by
  obtain ⟨q, hq⟩ := blockSize_dvd mi
  rw [Nat.mul_comm] at hq
  refine ⟨q, ?_, hq.symm⟩
  by_contra hle
  have := Nat.mul_le_mul_right mi.blockSize (Nat.le_of_not_lt hle)
  omega

/-- A volume of `n` blocks ends at or below 4 GiB exactly when its blocks begin below. -/
theorem volume_small_iff : n * mi.blockSize ≤ 2 ^ 32 ↔ ∀ b < n, b * mi.blockSize < 2 ^ 32 := by
  have hpos := blockSize_pos mi
  constructor
  · intro h b hb
    have hle := Nat.mul_le_mul_right mi.blockSize (show b + 1 ≤ n from hb)
    rw [Nat.add_mul, Nat.one_mul] at hle
    omega
  · intro h
    by_contra hlarge
    obtain ⟨q, hqn, hq⟩ := exists_block_at (Nat.lt_of_not_le hlarge)
    exact absurd (h q hqn) (by omega)

/-- Exact addresses keep the blocks apart. -/
theorem sectorsApart_of_exact (h : ∀ b < n, mi.LbaExact b) : mi.SectorsApart n := by
  intro b hb b' hb' hne s ⟨hlo, hhi⟩ ⟨hlo', hhi'⟩
  rw [h b hb] at hlo hhi
  rw [h b' hb'] at hlo' hhi'
  rcases Nat.lt_or_gt_of_ne hne with hlt | hlt
  · have := Nat.mul_le_mul_right (mi.blockSize / 512) (show b + 1 ≤ b' from hlt)
    rw [Nat.add_mul, Nat.one_mul] at this
    omega
  · have := Nat.mul_le_mul_right (mi.blockSize / 512) (show b' + 1 ≤ b from hlt)
    rw [Nat.add_mul, Nat.one_mul] at this
    omega

/-- On a larger volume the block at 4 GiB is read from the sectors of block 0. -/
theorem volume_small_of_apart (h : mi.SectorsApart n) : n * mi.blockSize ≤ 2 ^ 32 := by
  by_contra hlarge
  obtain ⟨q, hqn, hq⟩ := exists_block_at (Nat.lt_of_not_le hlarge)
  have hpos := sectors_pos mi
  have hq0 : 0 ≠ q := by
    rintro rfl
    rw [Nat.zero_mul] at hq
    exact absurd hq (by decide)
  have hlba : mi.getLba q = 0 := by
    unfold MountInfo.getLba
    rw [hq, Nat.mod_self, Nat.zero_div]
  have hlba0 : mi.getLba 0 = 0 := by
    unfold MountInfo.getLba
    rw [Nat.zero_mul, Nat.zero_mod, Nat.zero_div]
  -- sector 0 is read for both
  refine h 0 (by omega) q hqn hq0 0 ⟨?_, ?_⟩ ⟨?_, ?_⟩ <;> omega

end Lba

/-- **WHEN BLOCKS ARE ADDRESSED EXACTLY.**  The address of a block is exact if and only if
the block begins below 4 GiB; and the addresses on a volume are all exact, and its
blocks apart, if and only if the volume is no larger than 4 GiB. -/
theorem get_lba_iff (mi : MountInfo) :
    (∀ block, mi.LbaExact block ↔ block * mi.blockSize < 2 ^ 32)
      ∧ ∀ n, ((∀ b < n, mi.LbaExact b) ↔ n * mi.blockSize ≤ 2 ^ 32)
        ∧ (mi.SectorsApart n ↔ n * mi.blockSize ≤ 2 ^ 32) := by
  have hexact : ∀ n, (∀ b < n, mi.LbaExact b) ↔ n * mi.blockSize ≤ 2 ^ 32 := by
    intro n
    rw [volume_small_iff]
    exact forall₂_congr fun b _ => lbaExact_iff
  refine ⟨fun block => lbaExact_iff, fun n => ⟨hexact n, volume_small_of_apart, fun h => ?_⟩⟩
  exact sectorsApart_of_exact ((hexact n).mpr h)

/-- With blocks of 1 KiB, block `2 ^ 22` has the address of block 0. -/
theorem block_at_4_gib_wraps :
    ¬ ∀ (mi : MountInfo) (n : Nat), n ≤ 2 ^ 32 - 1 →
      (∀ b < n, mi.LbaExact b) ∧ mi.SectorsApart n := by
  intro h
  have hexact := (h smallMount (2 ^ 22 + 1) (by decide)).1 (2 ^ 22) (by decide)
  exact absurd hexact (by unfold MountInfo.LbaExact; decide)

end MierOS.Ext2
