/-
  MierOS.Ext2.BlockMap
  **THE BLOCK MAP**: `get_inode_block` of `inode.cpp` goes the way of the indirection
  tree, and no two blocks of a file are behind the same pointer.

  The first 12 blocks are in the inode; behind them come a tree of depth 1, one of
  depth 2 and one of depth 3, with `block_size / 4` pointers to a block.

  Main results: `blockWay`, `getInodeBlock_trees`, `block_map`.
-/
import MierOS.Ext2.Rw
import MierOS.Lib.IndexTree

namespace MierOS.Ext2

open Lib Lib.IndexTree

/-! ## §1. The indirection tree. -/

/-- `ptr_per_block`. -/
def MountInfo.ptrPerBlock (mi : MountInfo) : Nat := mi.blockSize / 4

/-- The root of the tree of this depth. -/
def Inode.root (inode : Inode) : Nat → Nat
  | 1 => inode.singlyIndirect
  | 2 => inode.doublyIndirect
  | 3 => inode.triplyIndirect
  | _ => 0

/-- Where the pointer to a block of a file is: in the inode, or at the end of a way
through the tree that is as deep as the way is long. -/
inductive BlockWay where
  | direct (index : Nat)
  | tree (indices : List Nat)
  deriving Repr, DecidableEq

/-- **The way to block `i`** with `p` pointers to a block. -/
def blockWay (p i : Nat) : Option BlockWay :=
  if i < 12 then some (.direct i) else (locate p 3 1 (i - 12)).map .tree

/-- What a way leads to. -/
def BlockWay.target (mi : MountInfo) (inode : Inode) : BlockWay → Nat
  | .direct i => inode.direct i
  | .tree l => follow mi.cacheWord (inode.root l.length) l

/-- The table index at every step, and what it has to stay below. -/
def BlockWay.InTables (p : Nat) : BlockWay → Prop
  | .direct i => i < 12
  | .tree l => ∀ x ∈ l, x < p

/-- The tables on the way are allocated: it leads through no hole of the file. -/
def BlockWay.Allocated (mi : MountInfo) (inode : Inode) : BlockWay → Prop
  | .direct _ => True
  | .tree l => IndexTree.Allocated mi.cacheWord (inode.root l.length) l

/-- The pointer that is read last: a field of the inode, or a word of a block. -/
inductive PointerSlot where
  | direct (index : Nat)
  | word (block index : Nat)
  deriving Repr, DecidableEq

def BlockWay.slot (mi : MountInfo) (inode : Inode) : BlockWay → PointerSlot
  | .direct i => .direct i
  | .tree l =>
      let last := IndexTree.slot mi.cacheWord inode.root l
      .word last.1 last.2

/-! ## §2. The code goes this way. -/

section Code

variable {mi : MountInfo} {inode : Inode} {i j : Nat}

/-- A block has at most `2 ^ 14` pointers, so that the sums and squares are exact. -/
theorem ptrPerBlock_bounds (hk : mi.blocksSize ≤ 6) :
    256 ≤ mi.ptrPerBlock ∧ mi.ptrPerBlock ≤ 2 ^ 14 := by
  have hp : mi.ptrPerBlock = 2 ^ (mi.blocksSize + 8) := by
    unfold MountInfo.ptrPerBlock
    rw [blockSize_eq, show mi.blocksSize + 10 = mi.blocksSize + 8 + 2 from rfl, Nat.pow_add]
    exact Nat.mul_div_cancel _ (by decide)
  rw [hp]
  constructor
  · calc 256 = 2 ^ 8 := rfl
      _ ≤ 2 ^ (mi.blocksSize + 8) := Nat.pow_le_pow_right (by decide) (by omega)
  · exact Nat.pow_le_pow_right (by decide) (by omega)

theorem leaves_three (p : Nat) : leaves p 3 1 = p + (p ^ 2 + p ^ 3) := by
  show p ^ 1 + (p ^ 2 + (p ^ 3 + 0)) = _
  rw [Nat.pow_one, Nat.add_zero]

theorem locate_of_blockWay {p : Nat} {l : List Nat} (h : blockWay p i = some (.tree l)) :
    12 ≤ i ∧ locate p 3 1 (i - 12) = some l := by
  unfold blockWay at h
  by_cases h12 : i < 12
  · rw [if_pos h12] at h
    cases h
  · rw [if_neg h12, Option.map_eq_some_iff] at h
    obtain ⟨l', hl', heq⟩ := h
    exact ⟨by omega, BlockWay.tree.inj heq ▸ hl'⟩

theorem blockWay_ne_nil {p : Nat} {l : List Nat} (h : blockWay p i = some (.tree l)) : l ≠ [] := by
  have hdepth := (locate_depth (locate_of_blockWay h).2).1
  rintro rfl
  exact absurd hdepth (by decide)

/-- **Different blocks have different ways.** -/
theorem blockWay_injective {p : Nat} (hp : 0 < p) {way : BlockWay} (hi : blockWay p i = some way)
    (hj : blockWay p j = some way) : i = j := by
  cases way with
  | direct x =>
      have hdirect : ∀ n, blockWay p n = some (.direct x) → n = x := by
        intro n hn
        unfold blockWay at hn
        by_cases h12 : n < 12
        · rw [if_pos h12] at hn
          exact BlockWay.direct.inj (Option.some.inj hn)
        · rw [if_neg h12, Option.map_eq_some_iff] at hn
          obtain ⟨l, -, heq⟩ := hn
          cases heq
      rw [hdirect i hi, hdirect j hj]
  | tree l =>
      obtain ⟨h12, hli⟩ := locate_of_blockWay hi
      obtain ⟨h12', hlj⟩ := locate_of_blockWay hj
      have := locate_injective hp hli hlj
      omega

/-- **The divisions of the code are the digits of the way**, in each of the three trees. -/
theorem getInodeBlock_trees (hk : mi.blocksSize ≤ 6) (h32 : i < 2 ^ 32) (h12 : ¬ i < 12)
    {l : List Nat} (hl : locate mi.ptrPerBlock 3 1 (i - 12) = some l) :
    getInodeBlock mi inode i = follow mi.cacheWord (inode.root l.length) l := by
  obtain ⟨hlo, hhi⟩ := ptrPerBlock_bounds hk
  unfold getInodeBlock
  rw [← show mi.ptrPerBlock = mi.blockSize / 4 from rfl]
  dsimp only
  generalize mi.ptrPerBlock = p at hlo hhi hl
  -- none of the sums of the code wraps
  have hsq : p * p ≤ 2 ^ 14 * 2 ^ 14 := Nat.mul_le_mul hhi hhi
  have hpp : p ^ 2 = p * p := Nat.pow_two p
  rw [if_neg h12, Nat.mod_eq_of_lt (show 12 + p < 2 ^ 32 by omega),
    Nat.mod_eq_of_lt (show 12 + p + p * p < 2 ^ 32 by omega),
    Nat.mod_eq_of_lt (show p * p < 2 ^ 32 by omega)]
  unfold locate at hl
  rw [Nat.pow_one] at hl
  by_cases hsingly : i < 12 + p
  · rw [if_pos (by omega)] at hl
    rw [if_pos hsingly, ← Option.some.inj hl]
    show _ = mi.cacheWord inode.singlyIndirect ((i - 12) / p ^ 0)
    rw [Nat.pow_zero, Nat.div_one]
  · rw [if_neg (by omega)] at hl
    rw [if_neg hsingly]
    unfold locate at hl
    rw [show 1 + 1 = 2 from rfl] at hl
    by_cases hdoubly : i < 12 + p + p * p
    · rw [if_pos (by omega)] at hl
      rw [if_pos hdoubly, ← Option.some.inj hl]
      show _ = mi.cacheWord (mi.cacheWord inode.doublyIndirect ((i - 12 - p) / p ^ 1))
        ((i - 12 - p) % p ^ 1 / p ^ 0)
      rw [Nat.pow_zero, Nat.div_one, Nat.pow_one]
    · rw [if_neg (by omega)] at hl
      rw [if_neg hdoubly]
      unfold locate at hl
      rw [show 2 + 1 = 3 from rfl] at hl
      by_cases htriply : i - 12 - p - p ^ 2 < p ^ 3
      · rw [if_pos htriply] at hl
        -- the difference is taken modulo `2 ^ 32` and does not wrap
        have hlocal : (i + (2 ^ 32 - (12 + p + p * p))) % 2 ^ 32 = i - 12 - p - p ^ 2 := by
          rw [show i + (2 ^ 32 - (12 + p + p * p)) = i - 12 - p - p ^ 2 + 2 ^ 32 by omega,
            Nat.add_mod_right, Nat.mod_eq_of_lt (by omega)]
        rw [hlocal, ← Option.some.inj hl]
        generalize i - 12 - p - p ^ 2 = n
        show _ = mi.cacheWord (mi.cacheWord (mi.cacheWord inode.triplyIndirect (n / p ^ 2))
          (n % p ^ 2 / p ^ 1)) (n % p ^ 2 % p ^ 1 / p ^ 0)
        rw [Nat.pow_zero, Nat.div_one, Nat.pow_one, hpp, Nat.mod_mul_right_div_self,
          Nat.mod_mul_left_mod]
      · rw [if_neg htriply] at hl
        exact absurd hl (by simp [locate])

end Code

/-- **THE BLOCK MAP.**  For block sizes up to 64 KiB every block number that the trees
cover, below `2 ^ 32`, has a way; `get_inode_block` gives what it leads to; its
indices are below the lengths of the tables; different numbers have different ways,
and where the tables on these are allocated they end in different pointers, if no block
is a table of the file twice. -/
theorem block_map (mi : MountInfo) (inode : Inode) (hk : mi.blocksSize ≤ 6) :
    let p := mi.ptrPerBlock
    let InFile := fun i => i < 12 + p + p ^ 2 + p ^ 3 ∧ i < 2 ^ 32
    (∀ i, InFile i → ∃ way, blockWay p i = some way ∧ way.InTables p
        ∧ getInodeBlock mi inode i = way.target mi inode)
      ∧ (∀ i j, InFile i → InFile j → blockWay p i = blockWay p j → i = j)
      ∧ (NoSharing mi.cacheWord inode.root
            {l | (BlockWay.tree l).Allocated mi inode
              ∧ ∃ i, InFile i ∧ blockWay p i = some (.tree l)} →
          ∀ i j way way', InFile i → InFile j → blockWay p i = some way →
            blockWay p j = some way' → way.Allocated mi inode → way'.Allocated mi inode →
            way.slot mi inode = way'.slot mi inode → i = j) := by
  intro p InFile
  obtain ⟨hlo, -⟩ := ptrPerBlock_bounds hk
  have hpos : 0 < p := Nat.lt_of_lt_of_le (by decide) hlo
  have hway : ∀ i, InFile i → ∃ way, blockWay p i = some way ∧ way.InTables p
      ∧ getInodeBlock mi inode i = way.target mi inode := by
    intro i ⟨hi, h32⟩
    unfold blockWay
    by_cases h12 : i < 12
    · exact ⟨.direct i, if_pos h12, h12, if_pos h12⟩
    · obtain ⟨l, hl⟩ := locate_isSome (b := p) (k := 3) (d := 1) (n := i - 12) (by
        rw [leaves_three]
        omega)
      rw [if_neg h12, hl]
      exact ⟨.tree l, rfl, locate_lt hpos hl, getInodeBlock_trees hk h32 h12 hl⟩
  -- a way is that of one number only
  have hinj : ∀ i j, InFile i → InFile j → blockWay p i = blockWay p j → i = j := by
    intro i j hi hj heq
    obtain ⟨way, hwi, -⟩ := hway i hi
    exact blockWay_injective hpos hwi (heq ▸ hwi)
  refine ⟨hway, hinj, fun hno i j way way' hi hj hwi hwj hali halj hslot => ?_⟩
  cases way with
  | direct x =>
      cases way' with
      | direct y =>
          obtain rfl := PointerSlot.direct.inj hslot
          exact blockWay_injective hpos hwi hwj
      | tree l' => cases hslot
  | tree l =>
      cases way' with
      | direct y => cases hslot
      | tree l' =>
          obtain ⟨hblock, hindex⟩ := PointerSlot.word.inj hslot
          -- trees that share no block end in different words
          obtain rfl := slot_injective hno ⟨hali, i, hi, hwi⟩ ⟨halj, j, hj, hwj⟩
            (blockWay_ne_nil hwi) (blockWay_ne_nil hwj) (Prod.ext hblock hindex)
          exact blockWay_injective hpos hwi hwj

/-- A volume where block 20 points to the blocks 21 and 22, and the rest is zeros. -/
def sparseMount : MountInfo :=
  { smallMount with cacheWord := fun block i => if block = 20 ∧ i < 2 then 21 + i else 0 }

/-- A file of holes with the tables 10, 20, 21 and 22. -/
def sparseInode : Inode := ⟨600000, fun _ => 0, 10, 20, 0⟩

theorem sparse_ways {i : Nat} {l : List Nat}
    (hal : (BlockWay.tree l).Allocated sparseMount sparseInode)
    (hway : blockWay sparseMount.ptrPerBlock i = some (.tree l)) :
    (∃ a, l = [a]) ∨ ∃ c a, c < 2 ∧ l = [c, a] := by
  obtain ⟨hlo, hhi⟩ := locate_depth (locate_of_blockWay hway).2
  match l with
  | [] => exact absurd hlo (by decide)
  | [a] => exact Or.inl ⟨a, rfl⟩
  | [c, a] =>
      -- the other pointers of block 20 are zeros
      obtain ⟨-, hnext, -⟩ := hal
      by_contra hnot
      exact hnext (if_neg fun h => hnot (Or.inr ⟨c, a, h.2, rfl⟩))
  | [_, _, _] => exact absurd rfl hal.1
  | _ :: _ :: _ :: _ :: _ => exact absurd hhi (by simp)

/-- The blocks 271 and 527 are behind the same index of two tables, in a file with many
holes. -/
theorem block_map_doubly :
    blockWay sparseMount.ptrPerBlock 271 = some (.tree [0, 3])
      ∧ blockWay sparseMount.ptrPerBlock 527 = some (.tree [1, 3])
      ∧ getInodeBlock sparseMount sparseInode 271
        = (BlockWay.tree [0, 3]).target sparseMount sparseInode
      ∧ (BlockWay.tree [0, 3]).slot sparseMount sparseInode
        ≠ (BlockWay.tree [1, 3]).slot sparseMount sparseInode := by
  have hp : sparseMount.ptrPerBlock = 256 := rfl
  have h271 : blockWay sparseMount.ptrPerBlock 271 = some (.tree [0, 3]) := by
    rw [hp]
    decide
  have h527 : blockWay sparseMount.ptrPerBlock 527 = some (.tree [1, 3]) := by
    rw [hp]
    decide
  obtain ⟨hway, -, hslots⟩ := block_map sparseMount sparseInode (by decide)
  obtain ⟨way, hway, -, htarget⟩ := hway 271 (by
    rw [hp]
    decide)
  rw [h271] at hway
  refine ⟨h271, h527, htarget.trans (Option.some.inj hway ▸ rfl), fun hslot => ?_⟩
  have heq := hslots ?_ 271 527 _ _ (by rw [hp]; decide) (by rw [hp]; decide) h271 h527
    ⟨by decide, by decide, trivial⟩ ⟨by decide, by decide, trivial⟩ hslot
  · exact absurd heq (by decide)
  · intro l ⟨hal, i, _, hi⟩ l' ⟨hal', j, _, hj⟩ hblock
    obtain ⟨a, rfl⟩ | ⟨c, a, hc, rfl⟩ := sparse_ways hal hi
    · obtain ⟨a', rfl⟩ | ⟨c', a', hc', rfl⟩ := sparse_ways hal' hj
      · exact ⟨rfl, rfl⟩
      · have hblock : 10 = if (20 : Nat) = 20 ∧ c' < 2 then 21 + c' else 0 := hblock
        rw [if_pos ⟨rfl, hc'⟩] at hblock
        omega
    · obtain ⟨a', rfl⟩ | ⟨c', a', hc', rfl⟩ := sparse_ways hal' hj
      · have hblock : (if (20 : Nat) = 20 ∧ c < 2 then 21 + c else 0) = 10 := hblock
        rw [if_pos ⟨rfl, hc⟩] at hblock
        omega
      · have hblock : (if (20 : Nat) = 20 ∧ c < 2 then 21 + c else 0)
            = if (20 : Nat) = 20 ∧ c' < 2 then 21 + c' else 0 := hblock
        rw [if_pos ⟨rfl, hc⟩, if_pos ⟨rfl, hc'⟩, Nat.add_left_cancel_iff] at hblock
        exact ⟨rfl, by rw [hblock]; rfl⟩

end MierOS.Ext2
