/-
  MierOS.Util.Crc
  **`crc.c`**: a register that shifts left, fed with reflected bytes and
  reflected at the end.  It computes the CRC-32 of `Lib.Crc`.

  Main results: `calcCrc32_eq`, `endCalcCrc32_eq`,
  `crc32_standard_and_splittable`.
-/
import MierOS.Lib.Crc

namespace MierOS.Util.Crc

open Lib.Crc

/-! ## §1. The code. -/

/-- The loop of `reflect8` and `reflect32`. -/
def reflectLoop {w : Nat} : Nat → BitVec w → BitVec w → BitVec w
  | 0, ret, _ => ret
  | n + 1, ret, value => reflectLoop n ((ret <<< 1) ||| (value &&& 1)) (value >>> 1)

/-- `reflect32(value)`. -/
def reflect32 (value : BitVec 32) : BitVec 32 := reflectLoop 32 0 value

/-- `reflect8(value)`. -/
def reflect8 (value : BitVec 8) : BitVec 8 := reflectLoop 8 0 value

/-- `CRC32_POLYNOMIAL`. -/
def crc32Polynomial : BitVec 32 := 0x04C11DB7

/-- One round of the inner loop. -/
def crcBit (remainder : BitVec 32) : BitVec 32 :=
  if remainder &&& 0x80000000 ≠ 0 then (remainder <<< 1) ^^^ crc32Polynomial
  else remainder <<< 1

/-- One round of the outer loop. -/
def crcByte (remainder : BitVec 32) (byte : BitVec 8) : BitVec 32 :=
  crcBit^[8] (remainder ^^^ ((reflect8 byte).setWidth 32 <<< 24))

/-- `begin_calc_crc32()`. -/
def beginCalcCrc32 : BitVec 32 := BitVec.allOnes 32

/-- `continue_calc_crc32(remainder, data, length)`. -/
def continueCalcCrc32 (remainder : BitVec 32) (data : List (BitVec 8)) : BitVec 32 :=
  data.foldl crcByte remainder

/-- `end_calc_crc32(remainder)`. -/
def endCalcCrc32 (remainder : BitVec 32) : BitVec 32 := reflect32 (~~~remainder)

/-- `calc_crc32(data, length)`. -/
def calcCrc32 (data : List (BitVec 8)) : BitVec 32 :=
  reflect32 (~~~(data.foldl crcByte (BitVec.allOnes 32)))

/-! ## §2. Reflection. -/

/-- **The loop invariant**: `ret` has the bits shifted out so far, the last one
lowest. -/
theorem getLsbD_reflectLoop {w : Nat} (n : Nat) (ret value : BitVec w) (i : Nat) (hi : i < w) :
    (reflectLoop n ret value).getLsbD i
      = if i < n then value.getLsbD (n - 1 - i) else ret.getLsbD (i - n) := by
  induction n generalizing ret value with
  | zero => rfl
  | succ n ih =>
      unfold reflectLoop
      rw [ih]
      by_cases hin : i < n
      · rw [if_pos hin, if_pos (by omega), BitVec.getLsbD_ushiftRight]
        congr 1
        omega
      · rw [if_neg hin, BitVec.getLsbD_or, BitVec.getLsbD_shiftLeft, BitVec.getLsbD_and]
        by_cases hlast : i = n
        · -- the bit just shifted in
          rw [if_pos (by omega), hlast]
          simp [show 0 < w by omega]
        · rw [if_neg (by omega)]
          have hlow : (1 : BitVec w).getLsbD (i - n) = false := by
            rw [show (1 : BitVec w) = 1#w from rfl, BitVec.getLsbD_one]
            simp [show i - n ≠ 0 by omega]
          rw [hlow, Bool.and_false, Bool.or_false, show i - n - 1 = i - (n + 1) by omega]
          have hone : i - n ≠ 0 := by omega
          simp [show i - n < w by omega, hone]

theorem reflectLoop_eq_reverse {w : Nat} (value : BitVec w) :
    reflectLoop w 0 value = value.reverse := by
  apply BitVec.eq_of_getLsbD_eq
  intro i hi
  rw [getLsbD_reflectLoop w 0 value i hi, if_pos hi, BitVec.getLsbD_reverse,
    BitVec.getMsbD_eq_getLsbD, decide_eq_true hi, Bool.true_and]

/-! ## §3. The check. -/

theorem crcBit_eq (r : BitVec 32) : crcBit r = stepLeft ieee r := by
  unfold crcBit stepLeft
  have htop : r &&& 0x80000000 ≠ 0 ↔ r.msb = true := by
    have hmask : (0x80000000 : BitVec 32) = BitVec.twoPow 32 31 := by decide +kernel
    rw [BitVec.msb_eq_getLsbD_last, hmask, BitVec.and_twoPow]
    cases r.getLsbD 31 <;> decide +kernel
  by_cases hmsb : r.msb = true
  · rw [if_pos (htop.mpr hmsb), if_pos hmsb]
    rfl
  · rw [if_neg (fun h => hmsb (htop.mp h)), if_neg hmsb]

theorem crcByte_eq : crcByte = byteLeft ieee := by
  funext r b
  unfold crcByte byteLeft
  rw [funext crcBit_eq, show reflect8 b = b.reverse from reflectLoop_eq_reverse b]

theorem endCalcCrc32_eq (data : List (BitVec 8)) :
    endCalcCrc32 (continueCalcCrc32 beginCalcCrc32 data) = crc32 data := by
  unfold endCalcCrc32 continueCalcCrc32 beginCalcCrc32
  rw [show reflect32 _ = _ from reflectLoop_eq_reverse _, reverse_not, crcByte_eq,
    reverse_foldLeft, reverse_ieee, show (BitVec.allOnes 32).reverse = BitVec.allOnes 32 by decide +kernel]
  rfl

/-- **`calc_crc32` is CRC-32.** -/
theorem calcCrc32_eq (data : List (BitVec 8)) : calcCrc32 data = crc32 data :=
  endCalcCrc32_eq data

theorem continueCalcCrc32_append (r : BitVec 32) (data data' : List (BitVec 8)) :
    continueCalcCrc32 r (data ++ data') = continueCalcCrc32 (continueCalcCrc32 r data) data' :=
  List.foldl_append

/-! ## §4. In pieces. -/

/-- The register behind all pieces is the one behind the string they make up. -/
theorem foldl_continueCalcCrc32 (r : BitVec 32) (pieces : List (List (BitVec 8))) :
    pieces.foldl continueCalcCrc32 r = continueCalcCrc32 r pieces.flatten := by
  induction pieces generalizing r with
  | nil => rfl
  | cons piece pieces ih =>
      rw [List.foldl_cons, ih, List.flatten_cons, continueCalcCrc32_append]

/-- **THE STANDARD CHECK, HOWEVER THE DATA ARRIVES.**  One call computes CRC-32, and so do
the three other calls over the pieces of the same string, wherever it is cut. -/
theorem crc32_standard_and_splittable (data : List (BitVec 8)) (pieces : List (List (BitVec 8))) :
    calcCrc32 data = crc32 data
      ∧ endCalcCrc32 (pieces.foldl continueCalcCrc32 beginCalcCrc32)
          = calcCrc32 pieces.flatten := by
  refine ⟨calcCrc32_eq data, ?_⟩
  rw [foldl_continueCalcCrc32]
  -- the two copies of the loop run the same register
  rfl

end MierOS.Util.Crc
