/-
  MierOS.Lib.WordMemory
  **64-BIT WORDS IN A MEMORY OF BYTES**, little-endian, addresses modulo 2^64.

  Main results: `holdsWord_writeWord`, `HoldsWord.writeWord`,
  `HoldsWord.unique`.
-/
import Mathlib.Data.Nat.Notation

namespace MierOS.Lib

abbrev Word := BitVec 64

abbrev ByteMemory := Word → BitVec 8

/-- The byte of a word at this offset. -/
def byteAt (value : Word) (k : Nat) : BitVec 8 := value.extractLsb' (8 * k) 8

/-- The memory after `*(u64_t*)addr = value`. -/
def writeWord (mem : ByteMemory) (addr value : Word) : ByteMemory := fun x =>
  if (x - addr).toNat < 8 then byteAt value (x - addr).toNat else mem x

/-- `*(u64_t*)addr == value`. -/
def HoldsWord (mem : ByteMemory) (addr value : Word) : Prop :=
  ∀ k < 8, mem (addr + BitVec.ofNat 64 k) = byteAt value k

instance (mem : ByteMemory) (addr value : Word) : Decidable (HoldsWord mem addr value) :=
  inferInstanceAs (Decidable (∀ k < 8, mem (addr + BitVec.ofNat 64 k) = byteAt value k))

/-- The words at the two addresses have a byte in common. -/
def Overlap (addr addr' : Word) : Prop := ∃ x : Word, (x - addr).toNat < 8 ∧ (x - addr').toNat < 8

variable {mem : ByteMemory} {addr addr' value value' : Word}

theorem offset_toNat (addr : Word) {k : Nat} (hk : k < 8) :
    (addr + BitVec.ofNat 64 k - addr).toNat = k := by
  rw [BitVec.add_comm, BitVec.add_sub_cancel, BitVec.toNat_ofNat]
  omega

theorem holdsWord_writeWord (mem : ByteMemory) (addr value : Word) :
    HoldsWord (writeWord mem addr value) addr value := by
  intro k hk
  unfold writeWord
  rw [offset_toNat addr hk, if_pos hk]

theorem HoldsWord.writeWord (h : HoldsWord mem addr value) (hapart : ¬ Overlap addr addr') :
    HoldsWord (writeWord mem addr' value') addr value := by
  intro k hk
  have hout : ¬ (addr + BitVec.ofNat 64 k - addr').toNat < 8 := fun hin =>
    hapart ⟨addr + BitVec.ofNat 64 k, by rw [offset_toNat addr hk]; exact hk, hin⟩
  unfold Lib.writeWord
  rw [if_neg hout]
  exact h k hk

/-- A word is its bytes. -/
theorem eq_of_byteAt (h : ∀ k < 8, byteAt value k = byteAt value' k) : value = value' := by
  apply BitVec.eq_of_getLsbD_eq
  intro i hi
  have hbit := congrArg (fun b => BitVec.getLsbD b (i % 8)) (h (i / 8) (by omega))
  have hlt : i % 8 < 8 := Nat.mod_lt i (by decide)
  simpa [byteAt, hlt, Nat.div_add_mod] using hbit

theorem HoldsWord.unique (h : HoldsWord mem addr value) (h' : HoldsWord mem addr value') :
    value = value' :=
  eq_of_byteAt fun k hk => (h k hk).symm.trans (h' k hk)

end MierOS.Lib
