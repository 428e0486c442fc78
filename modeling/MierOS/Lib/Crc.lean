/-
  MierOS.Lib.Crc
  **CYCLIC REDUNDANCY CHECKS**, bit by bit, in the two directions a register can
  be shifted.

  A register that shifts towards the most significant bit and one that shifts
  towards the least significant bit compute the same check when one runs on the
  bits of the other in reverse.  `crc32` is the check of the IEEE, the way it is
  usually computed.

  Main results: `reverse_stepLeft`, `reverse_foldLeft`.
-/
import Mathlib.Logic.Function.Iterate

namespace MierOS.Lib.Crc

variable {w : Nat}

/-- One bit of a register that shifts left. -/
def stepLeft (poly r : BitVec w) : BitVec w :=
  if r.msb then (r <<< 1) ^^^ poly else r <<< 1

/-- One bit of a register that shifts right. -/
def stepRight (poly r : BitVec w) : BitVec w :=
  if r.getLsbD 0 then (r >>> 1) ^^^ poly else r >>> 1

/-! ## §1. Reversal. -/

theorem reverse_xor (x y : BitVec w) : (x ^^^ y).reverse = x.reverse ^^^ y.reverse := by
  apply BitVec.eq_of_getLsbD_eq
  intro i hi
  rw [BitVec.getLsbD_xor, BitVec.getLsbD_reverse, BitVec.getLsbD_reverse, BitVec.getLsbD_reverse,
    BitVec.getMsbD_xor]

theorem reverse_not (x : BitVec w) : (~~~x).reverse = ~~~x.reverse := by
  apply BitVec.eq_of_getLsbD_eq
  intro i hi
  rw [BitVec.getLsbD_not, BitVec.getLsbD_reverse, BitVec.getLsbD_reverse, BitVec.getMsbD_not]

theorem reverse_shiftLeft (x : BitVec w) (n : Nat) : (x <<< n).reverse = x.reverse >>> n := by
  apply BitVec.eq_of_getLsbD_eq
  intro i hi
  rw [BitVec.getLsbD_reverse, BitVec.getLsbD_ushiftRight, BitVec.getLsbD_reverse,
    BitVec.getMsbD_shiftLeft]
  congr 1
  omega

/-- **One bit.** -/
theorem reverse_stepLeft (poly r : BitVec w) :
    (stepLeft poly r).reverse = stepRight poly.reverse r.reverse := by
  unfold stepLeft stepRight
  have hbit : r.reverse.getLsbD 0 = r.msb := by
    rw [BitVec.getLsbD_reverse, BitVec.msb]
  rw [hbit]
  split
  · rw [reverse_xor, reverse_shiftLeft]
  · rw [reverse_shiftLeft]

theorem reverse_iterate (poly : BitVec w) (n : Nat) (r : BitVec w) :
    ((stepLeft poly)^[n] r).reverse = (stepRight poly.reverse)^[n] r.reverse := by
  induction n generalizing r with
  | zero => rfl
  | succ n ih =>
      rw [Function.iterate_succ_apply, Function.iterate_succ_apply, ih, reverse_stepLeft]

/-! ## §2. Bytes into a register of 32 bits. -/

/-- The byte, its bits in reverse, goes into the top of the register. -/
def byteLeft (poly r : BitVec 32) (b : BitVec 8) : BitVec 32 :=
  (stepLeft poly)^[8] (r ^^^ (b.reverse.setWidth 32 <<< 24))

/-- The byte goes into the bottom of the register. -/
def byteRight (poly r : BitVec 32) (b : BitVec 8) : BitVec 32 :=
  (stepRight poly)^[8] (r ^^^ b.setWidth 32)

theorem reverse_top (b : BitVec 8) : (b.reverse.setWidth 32 <<< 24).reverse = b.setWidth 32 := by
  apply BitVec.eq_of_getLsbD_eq
  intro i hi
  rw [reverse_shiftLeft, BitVec.getLsbD_ushiftRight, BitVec.getLsbD_reverse, BitVec.getMsbD_setWidth,
    BitVec.getMsbD_reverse, BitVec.getLsbD_setWidth]
  by_cases h8 : i < 8
  · have h1 : 32 - 8 ≤ 24 + i := by omega
    have h2 : 24 + i - (32 - 8) = i := by omega
    simp [h1, h2, hi]
  · rw [BitVec.getLsbD_of_ge b i (by omega), BitVec.getLsbD_of_ge b _ (by omega)]
    simp

/-- **One byte.** -/
theorem reverse_byteLeft (poly r : BitVec 32) (b : BitVec 8) :
    (byteLeft poly r b).reverse = byteRight poly.reverse r.reverse b := by
  unfold byteLeft byteRight
  rw [reverse_iterate, reverse_xor, reverse_top]

/-- **Any number of bytes.** -/
theorem reverse_foldLeft (poly : BitVec 32) (data : List (BitVec 8)) (r : BitVec 32) :
    (data.foldl (byteLeft poly) r).reverse = data.foldl (byteRight poly.reverse) r.reverse := by
  induction data generalizing r with
  | nil => rfl
  | cons b data ih =>
      rw [List.foldl_cons, List.foldl_cons, ih, reverse_byteLeft]

/-- The generator polynomial, highest power first. -/
def ieee : BitVec 32 := 0x04C11DB7

/-- **CRC-32.** -/
def crc32 (data : List (BitVec 8)) : BitVec 32 :=
  ~~~(data.foldl (byteRight 0xEDB88320) (BitVec.allOnes 32))

theorem reverse_ieee : ieee.reverse = 0xEDB88320 := by decide +kernel

-- the check value of the nine digits
example : crc32 [0x31, 0x32, 0x33, 0x34, 0x35, 0x36, 0x37, 0x38, 0x39] = 0xCBF43926 := by
  decide +kernel

end MierOS.Lib.Crc
