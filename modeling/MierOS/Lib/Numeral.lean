/-
  MierOS.Lib.Numeral
  **NUMERALS IN A BASE**, the most significant digit first.

  A formatter takes digits off the end of a number, and a parser puts them to the end of
  one: `valueFrom b acc ds` is what Horner's rule makes of `acc` and the digits behind it.

  Main results: `IsNumeral`, `numeral`, `IsNumeral.eq_numeral`.
-/
import Mathlib.Data.Nat.Digits.Lemmas

namespace MierOS.Lib.Numeral

variable {b n acc : Nat} {ds : List Nat}

/-! ## §1. What digits are worth. -/

/-- The digits `ds` behind the number `acc`, by Horner's rule. -/
def valueFrom (b acc : Nat) (ds : List Nat) : Nat := ds.foldl (fun acc d => acc * b + d) acc

@[simp] theorem valueFrom_nil (b acc : Nat) : valueFrom b acc [] = acc := rfl

@[simp] theorem valueFrom_cons (b acc d : Nat) (ds : List Nat) :
    valueFrom b acc (d :: ds) = valueFrom b (acc * b + d) ds := rfl

/-- Digits do not make a number smaller. -/
theorem le_valueFrom (hb : 0 < b) (acc : Nat) (ds : List Nat) : acc ≤ valueFrom b acc ds := by
  induction ds generalizing acc with
  | nil => exact Nat.le_refl acc
  | cons d ds ih =>
      calc acc ≤ acc * b := Nat.le_mul_of_pos_right acc hb
        _ ≤ acc * b + d := Nat.le_add_right _ d
        _ ≤ valueFrom b (acc * b + d) ds := ih _

theorem valueFrom_zero (b : Nat) (ds : List Nat) : valueFrom b 0 ds = Nat.ofDigits b ds.reverse := by
  rw [Nat.ofDigits_eq_foldr, List.foldr_reverse]
  show List.foldl _ _ _ = List.foldl _ _ _
  congr 1
  funext acc d
  show acc * b + d = d + b * acc
  rw [Nat.add_comm, Nat.mul_comm]

/-! ## §2. Numerals. -/

/-- **A numeral**: digits of the base, at least one, and no zero in front of others. -/
structure IsNumeral (b : Nat) (ds : List Nat) : Prop where
  digit_lt : ∀ d ∈ ds, d < b
  ne_nil : ds ≠ []
  no_leading : ∀ l, ds = 0 :: l → l = []

/-- The numeral of a number. -/
def numeral (b n : Nat) : List Nat := if n = 0 then [0] else (Nat.digits b n).reverse

theorem numeral_zero (b : Nat) : numeral b 0 = [0] := if_pos rfl

theorem numeral_of_ne (hn : n ≠ 0) : numeral b n = (Nat.digits b n).reverse := if_neg hn

theorem isNumeral_numeral (hb : 1 < b) (n : Nat) : IsNumeral b (numeral b n) := by
  by_cases hn : n = 0
  · rw [hn, numeral_zero]
    constructor
    case digit_lt =>
      intro d hd
      rw [List.mem_singleton.mp hd]
      exact Nat.lt_of_succ_lt hb
    case ne_nil => exact List.cons_ne_nil 0 []
    case no_leading =>
      intro l hl
      exact (List.cons.inj hl).2.symm
  · rw [numeral_of_ne hn]
    constructor
    case digit_lt =>
      intro d hd
      exact Nat.digits_lt_base hb (List.mem_reverse.mp hd)
    case ne_nil =>
      intro hnil
      exact Nat.digits_ne_nil_iff_ne_zero.mpr hn (List.reverse_eq_nil_iff.mp hnil)
    case no_leading =>
      -- the last of the digits is not zero
      intro l hl
      have hdigits : Nat.digits b n = l.reverse ++ [0] := by
        rw [← List.reverse_reverse (Nat.digits b n), hl, List.reverse_cons]
      have hlast := Nat.getLast_digit_ne_zero b hn
      simp only [hdigits, List.getLast_append_singleton] at hlast
      exact absurd rfl hlast

/-- **The numeral of a number is worth the number.** -/
theorem valueFrom_numeral (b n : Nat) : valueFrom b 0 (numeral b n) = n := by
  by_cases hn : n = 0
  · rw [hn, numeral_zero, valueFrom_cons, Nat.zero_mul, Nat.add_zero, valueFrom_nil]
  · rw [numeral_of_ne hn, valueFrom_zero, List.reverse_reverse, Nat.ofDigits_digits]

/-- **A number has one numeral.** -/
theorem IsNumeral.eq_numeral (h : IsNumeral b ds) (hb : 1 < b) :
    ds = numeral b (valueFrom b 0 ds) := by
  by_cases hzero : ∃ l, ds = 0 :: l
  · obtain ⟨l, hl⟩ := hzero
    have hnil := h.no_leading l hl
    subst hnil
    rw [hl, valueFrom_cons, Nat.zero_mul, Nat.add_zero, valueFrom_nil, numeral_zero]
  · have hdigits : Nat.digits b (Nat.ofDigits b ds.reverse) = ds.reverse := by
      apply Nat.digits_ofDigits b hb
      · intro d hd
        exact h.digit_lt d (List.mem_reverse.mp hd)
      · intro hne hlast
        rw [List.getLast_reverse] at hlast
        cases ds with
        | nil => exact hne rfl
        | cons d l => exact hzero ⟨l, by rw [show d = 0 from hlast]⟩
    have hne : Nat.ofDigits b ds.reverse ≠ 0 := by
      intro hof
      rw [hof, Nat.digits_zero] at hdigits
      exact h.ne_nil (List.reverse_eq_nil_iff.mp hdigits.symm)
    rw [valueFrom_zero, numeral_of_ne hne, hdigits, List.reverse_reverse]

/-! ## §3. Taking digits off the end. -/

theorem numeral_of_lt (hn : n < b) : numeral b n = [n] := by
  by_cases hzero : n = 0
  · rw [hzero, numeral_zero]
  · rw [numeral_of_ne hzero, Nat.digits_of_lt b n hzero hn, List.reverse_singleton]

/-- **The last digit is the remainder**, and the others are those of the quotient. -/
theorem numeral_step (hb : 1 < b) (hn : b ≤ n) :
    numeral b n = numeral b (n / b) ++ [n % b] := by
  have hpos : 0 < b := Nat.lt_of_succ_lt hb
  have hne : n ≠ 0 := Nat.ne_of_gt (Nat.lt_of_lt_of_le hpos hn)
  have hquot : n / b ≠ 0 := Nat.ne_of_gt (Nat.div_pos hn hpos)
  rw [numeral_of_ne hne, numeral_of_ne hquot, Nat.digits_eq_cons_digits_div hb hne,
    List.reverse_cons]

end MierOS.Lib.Numeral
