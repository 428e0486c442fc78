/-
  MierOS.Lib.LowBits
  **THE LOW BITS OF A 64-BIT WORD**: rounding with a mask, as division.

  Main results: `toNat_and_mask`, `toNat_and_not_mask`, `toNat_or_mask`,
  `toNat_blocks`.
-/
import Mathlib.Algebra.Group.Nat.Defs

namespace MierOS.Lib.LowBits

variable {k : Nat}

/-- The `k` low bits. -/
def mask (k : Nat) : BitVec 64 := BitVec.ofNat 64 (2 ^ k - 1)

theorem toNat_mask (hk : k ≤ 64) : (mask k).toNat = 2 ^ k - 1 := by
  have hpow : 2 ^ k ≤ 2 ^ 64 := Nat.pow_le_pow_right (by decide) hk
  have hpos : 0 < 2 ^ k := Nat.two_pow_pos k
  unfold mask
  rw [BitVec.toNat_ofNat]
  omega

theorem toNat_and_mask (hk : k ≤ 64) (x : BitVec 64) : (x &&& mask k).toNat = x.toNat % 2 ^ k := by
  rw [BitVec.toNat_and, toNat_mask hk, Nat.and_two_pow_sub_one_eq_mod]

theorem and_mask_eq_zero_iff (hk : k ≤ 64) (x : BitVec 64) :
    x &&& mask k = 0 ↔ x.toNat % 2 ^ k = 0 := by
  rw [← toNat_and_mask hk, ← BitVec.toNat_inj]
  rfl

/-- The bits that are left are those of the mask moved out of the way. -/
theorem not_mask (k : Nat) : ~~~mask k = BitVec.allOnes 64 <<< k := by
  ext i hi
  rw [BitVec.getElem_not, BitVec.getElem_shiftLeft, BitVec.getElem_allOnes,
    ← BitVec.getLsbD_eq_getElem hi]
  unfold mask
  rw [BitVec.getLsbD_ofNat, Nat.testBit_two_pow_sub_one]
  simp [hi]

theorem toNat_and_not_mask (k : Nat) (x : BitVec 64) :
    (x &&& ~~~mask k).toNat = x.toNat / 2 ^ k * 2 ^ k := by
  have hx := x.isLt
  have hle : x.toNat / 2 ^ k * 2 ^ k ≤ x.toNat := Nat.div_mul_le_self _ _
  rw [not_mask, ← BitVec.shiftLeft_ushiftRight, BitVec.toNat_shiftLeft, BitVec.toNat_ushiftRight,
    Nat.shiftLeft_eq, Nat.shiftRight_eq_div_pow, Nat.mod_eq_of_lt (by omega)]

/-- Filling the low bits of a number. -/
theorem or_two_pow_sub_one (k n : Nat) : n ||| 2 ^ k - 1 = n / 2 ^ k * 2 ^ k + (2 ^ k - 1) := by
  have hpos : 0 < 2 ^ k := Nat.two_pow_pos k
  have hlow : n % 2 ^ k ||| 2 ^ k - 1 = 2 ^ k - 1 := by
    have hlt : n % 2 ^ k ||| 2 ^ k - 1 < 2 ^ k :=
      Nat.or_lt_two_pow (Nat.mod_lt _ hpos) (by omega)
    have hge : 2 ^ k - 1 ≤ n % 2 ^ k ||| 2 ^ k - 1 := Nat.right_le_or
    omega
  have hdiv : (n ||| 2 ^ k - 1) / 2 ^ k = n / 2 ^ k := by
    rw [Nat.or_div_two_pow, Nat.div_eq_of_lt (show 2 ^ k - 1 < 2 ^ k by omega), Nat.or_zero]
  have hmod : (n ||| 2 ^ k - 1) % 2 ^ k = 2 ^ k - 1 := by
    rw [Nat.or_mod_two_pow, Nat.mod_eq_of_lt (show 2 ^ k - 1 < 2 ^ k by omega), hlow]
  calc n ||| 2 ^ k - 1
      = (n ||| 2 ^ k - 1) / 2 ^ k * 2 ^ k + (n ||| 2 ^ k - 1) % 2 ^ k :=
        (Nat.div_add_mod' _ _).symm
    _ = n / 2 ^ k * 2 ^ k + (2 ^ k - 1) := by rw [hdiv, hmod]

theorem toNat_or_mask (hk : k ≤ 64) (x : BitVec 64) :
    (x ||| mask k).toNat = x.toNat / 2 ^ k * 2 ^ k + (2 ^ k - 1) := by
  rw [BitVec.toNat_or, toNat_mask hk, or_two_pow_sub_one]

/-- A quotient rounded up, by its rest. -/
theorem add_pred_div {n m : Nat} (hm : 0 < m) :
    (n + (m - 1)) / m = n / m + if n % m = 0 then 0 else 1 := by
  have hsplit : n + (m - 1) = m * (n / m) + (n % m + (m - 1)) := by
    have hdiv := Nat.div_add_mod n m
    omega
  have hlt := Nat.mod_lt n hm
  rw [hsplit, Nat.mul_add_div hm]
  by_cases hrest : n % m = 0
  · rw [if_pos hrest, hrest, Nat.div_eq_of_lt (show 0 + (m - 1) < m by omega)]
  · have hone : n % m + (m - 1) = n % m - 1 + m := by omega
    rw [if_neg hrest, hone, Nat.add_div_right _ hm,
      Nat.div_eq_of_lt (show n % m - 1 < m by omega)]

/-- **The quotient rounded up.**  It does not wrap: some bits are shifted out. -/
theorem toNat_blocks (hpos : 0 < k) (hk : k ≤ 64) (x : BitVec 64) :
    ((x >>> k) + (if x &&& mask k = 0 then 0 else 1)).toNat = (x.toNat + (2 ^ k - 1)) / 2 ^ k := by
  have hx := x.isLt
  have htwo : 2 ^ 1 ≤ 2 ^ k := Nat.pow_le_pow_right (by decide) hpos
  have hhalf : x.toNat / 2 ^ k ≤ x.toNat / 2 ^ 1 := Nat.div_le_div_left htwo (by decide)
  have hroom : x.toNat / 2 ^ k + 1 < 2 ^ 64 := Nat.lt_of_le_of_lt (Nat.succ_le_succ hhalf) (by omega)
  have hzero : (0 : BitVec 64).toNat = 0 := rfl
  have hone : (1 : BitVec 64).toNat = 1 := rfl
  rw [add_pred_div (Nat.two_pow_pos k), BitVec.toNat_add, BitVec.toNat_ushiftRight,
    Nat.shiftRight_eq_div_pow]
  by_cases hrest : x &&& mask k = 0
  · rw [if_pos hrest, if_pos ((and_mask_eq_zero_iff hk x).mp hrest), hzero]
    exact Nat.mod_eq_of_lt (Nat.lt_of_succ_lt hroom)
  · rw [if_neg hrest, if_neg fun h => hrest ((and_mask_eq_zero_iff hk x).mpr h), hone]
    exact Nat.mod_eq_of_lt hroom

end MierOS.Lib.LowBits
