/-
  MierOS.Stdlib.NumToString
  **NUMBERS AS TEXT**: `num_to_string` of `string.hpp` and `atoi` of `stdlib.c`.

  The digit loop takes digits off with `%` and `/`, which truncate, and goes on while the
  number is positive.  A number below zero leaves it after one digit, and that digit is not
  positive: its character is '0' or one in front of it.

  Main results: `numToString_of_nonneg`, `numToString_of_neg`, `atoi_eq`,
  `num_to_string_iff`, `device_name_injective`.
-/
import Mathlib.Data.List.GetD
import Mathlib.Tactic.IntervalCases
import MierOS.Lib.Numeral

namespace MierOS.Stdlib.NumToString

open Lib.Numeral

/-! ## §1. The code. -/

/-- The characters of a string, without the NUL behind them. -/
abbrev Str := List UInt8

/-- `'-'`. -/
def minus : UInt8 := 45

/-- `'+'`. -/
def plus : UInt8 := 43

/-- `'0'`. -/
def zero : UInt8 := 48

/-- `'9'`. -/
def nine : UInt8 := 57

/-- An integer type: the conversion of a value to `int`, and the number it stands for. -/
class NumType (T : Type) [LT T] [Div T] [Mod T] [OfNat T 0] [OfNat T 10] where
  toInt32 : T → Int32
  val : T → Int
  lt_zero_iff : ∀ a : T, a < 0 ↔ val a < 0
  pos_iff : ∀ a : T, a > 0 ↔ 0 < val a
  val_div : ∀ a : T, val (a / 10) = (val a).tdiv 10
  toInt_mod : ∀ a : T, (toInt32 (a % 10)).toInt = (val a).tmod 10
  -- no more digits than `buffer` has places
  val_lt : ∀ a : T, (val a).natAbs < 10 ^ 80

/-- `int`. -/
instance : NumType Int32 where
  toInt32 := id
  val := Int32.toInt
  lt_zero_iff _ := Int32.lt_iff_toInt_lt
  pos_iff _ := Int32.lt_iff_toInt_lt
  val_div a := Int32.toInt_div_of_ne_right a 10 (by decide)
  toInt_mod a := Int32.toInt_mod a 10
  val_lt a := by
    have hle := Int32.le_toInt a
    have hlt := Int32.toInt_lt a
    omega

/-- An unsigned type of at most 64 bits, converted to `int` modulo 2^32. -/
@[reducible] def NumType.ofUnsigned {T : Type} [LT T] [Div T] [Mod T] [OfNat T 0] [OfNat T 10]
    (toNat : T → Nat) (hlt : ∀ a b : T, a < b ↔ toNat a < toNat b) (hzero : toNat 0 = 0)
    (hdiv : ∀ a : T, toNat (a / 10) = toNat a / 10) (hmod : ∀ a : T, toNat (a % 10) = toNat a % 10)
    (hsize : ∀ a : T, toNat a < 2 ^ 64) : NumType T where
  toInt32 a := Int32.ofNat (toNat a)
  val a := toNat a
  lt_zero_iff a := by
    rw [hlt, hzero]
    omega
  pos_iff a := by
    rw [gt_iff_lt, hlt, hzero]
    omega
  val_div a := by
    rw [hdiv]
    rfl
  toInt_mod a := by
    rw [hmod]
    exact Int32.toInt_ofNat_of_lt (Nat.lt_trans (Nat.mod_lt _ (by decide)) (by decide))
  val_lt a := by
    have hle := hsize a
    omega

/-- `u16_t`. -/
instance : NumType UInt16 :=
  .ofUnsigned UInt16.toNat (fun _ _ => UInt16.lt_iff_toNat_lt) rfl
    (fun a => UInt16.toNat_div a 10) (fun a => UInt16.toNat_mod a 10)
    (fun a => Nat.lt_trans (UInt16.toNat_lt a) (by decide))

/-- `size_t`. -/
instance : NumType UInt64 :=
  .ofUnsigned UInt64.toNat (fun _ _ => UInt64.lt_iff_toNat_lt) rfl
    (fun a => UInt64.toNat_div a 10) (fun a => UInt64.toNat_mod a 10) UInt64.toNat_lt

/-- The character `'0' + digit`. -/
def charOf (digit : Int32) : UInt8 := (48 + digit).toInt8.toUInt8

/-- `char buffer[80]`. -/
def bufferSize : Nat := 80

section Formatter

variable {T : Type} [LT T] [DecidableLT T] [Div T] [Mod T] [OfNat T 0] [OfNat T 10] [NumType T]

/-- The digit loop, with `room` places left behind the characters in `buffer`; `none` is a
write behind the last place. -/
def digitLoop : Nat → T → Str → Option Str
  | 0, _, _ => none
  | room + 1, num, buffer =>
      let digit := NumType.toInt32 (num % 10)
      let num := num / 10
      let buffer := buffer ++ [charOf digit]
      if num > 0 then digitLoop room num buffer else some buffer

/-- The array `fin`: a sign if there is one, the buffer from its end, and a NUL. -/
def fin (neg : Bool) (buffer : Str) : Str :=
  (if neg then [minus] else [])
    ++ (List.range buffer.length).map (fun i => buffer.getD (buffer.length - i - 1) 0) ++ [0]

/-- `String(init_str)`: the characters up to the first NUL. -/
def newString (initStr : Str) : Str := initStr.takeWhile (· ≠ 0)

/-- `num_to_string(num)`. -/
def numToString (num : T) : Option Str :=
  (digitLoop bufferSize num []).map fun buffer => newString (fin (decide (num < 0)) buffer)

end Formatter

/-- The result of signed arithmetic; there is none outside the range of `int`. -/
def intOf (x : Int) : Option Int32 :=
  if -2 ^ 31 ≤ x ∧ x < 2 ^ 31 then some (Int32.ofInt x) else none

/-- `*str >= '0' && *str <= '9'`; the characters from 128 on, which are negative, are none. -/
def isDigit (c : UInt8) : Bool := zero ≤ c ∧ c ≤ nine

/-- The loop of `atoi`; the NUL at the end is no digit. -/
def atoiLoop : Str → Int32 → Option Int32
  | [], finalNum => some finalNum
  | c :: str, finalNum =>
      if isDigit c then
        (intOf (finalNum.toInt * 10)).bind fun x =>
          (intOf (x.toInt + (c.toInt8.toInt - 48))).bind (atoiLoop str)
      else some finalNum

/-- `sign`, and `str` behind it. -/
def signOf : Str → Int32 × Str
  | [] => (1, [])
  | c :: str =>
      if c = minus then (-1, str)
      else if c = plus then (1, str)
      else (1, c :: str)

/-- `atoi(str)`. -/
def atoi (str : Str) : Option Int32 :=
  (atoiLoop (signOf str).2 0).bind fun finalNum => intOf (finalNum.toInt * (signOf str).1.toInt)

/-! ## §2. Decimal text. -/

/-- The character of a digit. -/
def digitChar (d : Nat) : UInt8 := UInt8.ofNat (48 + d)

/-- What a digit's character is worth. -/
def digitValue (c : UInt8) : Nat := c.toNat - 48

/-- The digits a string starts with. -/
def leadingDigits (str : Str) : List Nat := (str.takeWhile isDigit).map digitValue

/-- `'-'` for a number below zero. -/
def signText (n : Int) : Str := if n < 0 then [minus] else []

/-- **The canonical decimal form of `n`**: a `'-'` if it is below zero, and digits, with no
zero in front of others. -/
def Canonical (text : Str) (n : Int) : Prop :=
  ∃ ds, IsNumeral 10 ds ∧ valueFrom 10 0 ds = n.natAbs ∧ text = signText n ++ ds.map digitChar

/-- The form computed. -/
def decimal (n : Int) : Str := signText n ++ (numeral 10 n.natAbs).map digitChar

/-- **There is one canonical form.** -/
theorem canonical_iff {text : Str} {n : Int} : Canonical text n ↔ text = decimal n := by
  constructor
  · intro h
    obtain ⟨ds, hds, hvalue, htext⟩ := h
    rw [htext, hds.eq_numeral (by decide), hvalue]
    rfl
  · intro h
    exact ⟨numeral 10 n.natAbs, isNumeral_numeral (by decide) _, valueFrom_numeral 10 _, h⟩

section Characters

variable {d : Nat} {ds : List Nat} {str : Str}

theorem digitChar_toNat (hd : d < 10) : (digitChar d).toNat = 48 + d := by
  apply UInt8.toNat_ofNat_of_lt'
  unfold UInt8.size
  omega

theorem isDigit_iff (c : UInt8) : isDigit c = true ↔ 48 ≤ c.toNat ∧ c.toNat ≤ 57 := by
  unfold isDigit
  rw [Bool.decide_and, Bool.and_eq_true, decide_eq_true_iff, decide_eq_true_iff,
    UInt8.le_iff_toNat_le, UInt8.le_iff_toNat_le]
  exact Iff.rfl

theorem isDigit_digitChar (hd : d < 10) : isDigit (digitChar d) = true := by
  rw [isDigit_iff, digitChar_toNat hd]
  omega

theorem digitValue_digitChar (hd : d < 10) : digitValue (digitChar d) = d := by
  unfold digitValue
  rw [digitChar_toNat hd]
  omega

theorem leadingDigits_cons {c : UInt8} (hc : isDigit c = true) :
    leadingDigits (c :: str) = digitValue c :: leadingDigits str := by
  unfold leadingDigits
  rw [List.takeWhile_cons_of_pos hc, List.map_cons]

theorem leadingDigits_stop {c : UInt8} (hc : ¬ isDigit c = true) :
    leadingDigits (c :: str) = [] := by
  unfold leadingDigits
  rw [List.takeWhile_cons_of_neg hc, List.map_nil]

/-- Digits are read back, and what is behind them as well. -/
theorem leadingDigits_append (hds : ∀ d ∈ ds, d < 10) :
    leadingDigits (ds.map digitChar ++ str) = ds ++ leadingDigits str := by
  induction ds with
  | nil => rfl
  | cons d ds ih =>
      have hd := hds d List.mem_cons_self
      have hrest := ih fun e he => hds e (List.mem_cons_of_mem d he)
      rw [List.map_cons, List.cons_append, leadingDigits_cons (isDigit_digitChar hd),
        digitValue_digitChar hd, hrest, List.cons_append]

theorem leadingDigits_map (hds : ∀ d ∈ ds, d < 10) : leadingDigits (ds.map digitChar) = ds := by
  have happend : leadingDigits (ds.map digitChar ++ []) = ds ++ [] := leadingDigits_append hds
  rw [List.append_nil, List.append_nil] at happend
  exact happend

/-- A digit of a numeral is no sign. -/
theorem digitChar_ne (hd : d < 10) {c : UInt8} (hc : ¬ isDigit c = true) : digitChar d ≠ c := by
  intro heq
  rw [← heq] at hc
  exact hc (isDigit_digitChar hd)

end Characters

/-! ## §3. What is written. -/

/-- `'0' + digit`, for every remainder. -/
theorem charOf_toNat (digit : Int32) (hge : -9 ≤ digit.toInt) (hle : digit.toInt ≤ 9) :
    ((charOf digit).toNat : Int) = 48 + digit.toInt := by
  rw [← Int32.ofInt_toInt digit]
  generalize digit.toInt = k at hge hle
  interval_cases k <;> decide

theorem charOf_eq {digit : Int32} {d : Nat} (h : digit.toInt = d) (hd : d < 10) :
    charOf digit = digitChar d := by
  have hchar := charOf_toNat digit (by omega) (by omega)
  apply UInt8.toNat_inj.mp
  rw [digitChar_toNat hd]
  omega

section Formatter

variable {T : Type} [LT T] [DecidableLT T] [Div T] [Mod T] [OfNat T 0] [OfNat T 10] [NumType T]

omit [DecidableLT T] in
/-- The quotient of a number from zero on. -/
theorem val_quot {num : T} {n : Nat} (hn : NumType.val num = n) :
    NumType.val (num / 10) = ((n / 10 : Nat) : Int) := by
  rw [NumType.val_div, hn]
  rfl

omit [DecidableLT T] in
theorem charOf_rem {num : T} {n : Nat} (hn : NumType.val num = n) :
    charOf (NumType.toInt32 (num % 10)) = digitChar (n % 10) := by
  refine charOf_eq ?_ (Nat.mod_lt n (by decide))
  rw [NumType.toInt_mod, hn]
  rfl

omit [DecidableLT T] in
/-- The loop goes on as long as there are digits. -/
theorem quot_pos_iff {num : T} {n : Nat} (hn : NumType.val num = n) : num / 10 > 0 ↔ 10 ≤ n := by
  rw [NumType.pos_iff, val_quot hn]
  omega

/-- **From zero on the loop takes all digits**, the last one first. -/
theorem digitLoop_of_nonneg (room : Nat) : ∀ (num : T) (buffer : Str),
    0 ≤ NumType.val num → (NumType.val num).toNat < 10 ^ room → 0 < room →
      digitLoop room num buffer
        = some (buffer ++ ((numeral 10 (NumType.val num).toNat).map digitChar).reverse) := by
  induction room with
  | zero => exact fun _ _ _ _ hroom => absurd hroom (Nat.lt_irrefl 0)
  | succ room ih =>
      intro num buffer hnum hlt _
      obtain ⟨n, hn⟩ := Int.eq_ofNat_of_zero_le hnum
      have hquot := val_quot hn
      rw [hn, Int.toNat_natCast] at hlt ⊢
      unfold digitLoop
      dsimp only
      rw [charOf_rem hn]
      by_cases hge : 10 ≤ n
      · -- the digits in front of this one
        have hroom : n / 10 < 10 ^ room := by
          rw [Nat.div_lt_iff_lt_mul (by decide), ← Nat.pow_succ]
          exact hlt
        have hroom0 : 0 < room := by
          apply Nat.pos_of_ne_zero
          intro hzero
          rw [hzero, Nat.pow_zero] at hroom
          omega
        have hrest := ih (num / 10) (buffer ++ [digitChar (n % 10)])
          (by omega) (by rw [hquot, Int.toNat_natCast]; exact hroom) hroom0
        rw [if_pos ((quot_pos_iff hn).mpr hge), hrest, hquot, Int.toNat_natCast,
          numeral_step (by decide) hge, List.map_append, List.reverse_append, List.append_assoc]
        rfl
      · have hsmall : n < 10 := Nat.lt_of_not_le hge
        rw [if_neg (mt (quot_pos_iff hn).mp hge), numeral_of_lt hsmall, Nat.mod_eq_of_lt hsmall]
        rfl

/-- **Below zero the loop stops after one digit.** -/
theorem digitLoop_of_neg {num : T} (h : NumType.val num < 0) (room : Nat) (buffer : Str) :
    digitLoop (room + 1) num buffer
      = some (buffer ++ [charOf (NumType.toInt32 (num % 10))]) := by
  have hstop : ¬ num / 10 > 0 := by
    intro hgo
    have hpos := (NumType.pos_iff (num / 10)).mp hgo
    obtain ⟨k, hk⟩ := Int.eq_negSucc_of_lt_zero h
    have hquot : (NumType.val num).tdiv 10 = -(((k + 1) / 10 : Nat) : Int) := by
      rw [hk]
      rfl
    rw [NumType.val_div, hquot] at hpos
    omega
  unfold digitLoop
  exact if_neg hstop

/-- The array holds the characters of the buffer from the end. -/
theorem fin_eq (neg : Bool) (buffer : Str) :
    fin neg buffer = (if neg then [minus] else []) ++ buffer.reverse ++ [0] := by
  unfold fin
  congr 2
  apply List.ext_getElem
  · rw [List.length_map, List.length_range, List.length_reverse]
  · intro i hi hi'
    rw [List.length_reverse] at hi'
    rw [List.getElem_map, List.getElem_range, List.getElem_reverse,
      List.getD_eq_getElem _ _ (by omega)]
    congr 1
    omega

theorem newString_eq {text : Str} (h : 0 ∉ text) : newString (text ++ [0]) = text := by
  unfold newString
  rw [List.takeWhile_append_of_pos]
  · exact List.append_nil text
  · intro c hc
    exact decide_eq_true (fun hzero => h (hzero ▸ hc))

theorem zero_notMem_map {ds : List Nat} (hds : ∀ d ∈ ds, d < 10) : 0 ∉ ds.map digitChar := by
  intro hmem
  obtain ⟨d, hd, hzero⟩ := List.mem_map.mp hmem
  exact digitChar_ne (hds d hd) (by decide) hzero

/-- **What is written of a number from zero on**: its canonical form. -/
theorem numToString_of_nonneg {num : T} (h : 0 ≤ NumType.val num) :
    numToString num = some (decimal (NumType.val num)) := by
  have hlt : (NumType.val num).toNat < 10 ^ bufferSize := by
    have hle := NumType.val_lt num
    unfold bufferSize
    omega
  have hneg : ¬ num < 0 := by
    rw [NumType.lt_zero_iff]
    omega
  have habs : (NumType.val num).toNat = (NumType.val num).natAbs := by omega
  have hds := (isNumeral_numeral (b := 10) (by decide) (NumType.val num).natAbs).digit_lt
  unfold numToString decimal signText
  rw [digitLoop_of_nonneg bufferSize num [] h hlt (by decide), Option.map_some, fin_eq,
    decide_eq_false hneg, if_neg (not_lt.mpr h), habs, List.nil_append, List.reverse_reverse]
  exact congrArg some (newString_eq (zero_notMem_map hds))

example : numToString (5231 : Int32) = some [53, 50, 51, 49] := by decide

omit [DecidableLT T] in
/-- The one digit of a number below zero, as a character. -/
theorem charOf_neg {num : T} (h : NumType.val num < 0) :
    (charOf (NumType.toInt32 (num % 10))).toNat = 48 - (NumType.val num).natAbs % 10 := by
  have hmod : (NumType.toInt32 (num % 10)).toInt = -(((NumType.val num).natAbs % 10 : Nat) : Int) := by
    rw [NumType.toInt_mod]
    obtain ⟨k, hk⟩ := Int.eq_negSucc_of_lt_zero h
    rw [hk]
    rfl
  have hlt := Nat.mod_lt (NumType.val num).natAbs (show 10 > 0 by decide)
  have hchar := charOf_toNat (NumType.toInt32 (num % 10)) (by omega) (by omega)
  omega

/-- **What is written of a number below zero**: a sign and one character. -/
theorem numToString_of_neg {num : T} (h : NumType.val num < 0) :
    numToString num = some [minus, charOf (NumType.toInt32 (num % 10))] := by
  have hneg : num < 0 := (NumType.lt_zero_iff num).mpr h
  unfold numToString
  rw [show bufferSize = 79 + 1 from rfl, digitLoop_of_neg h, Option.map_some, fin_eq,
    decide_eq_true hneg]
  apply congrArg some
  apply newString_eq
  intro hmem
  rcases List.mem_cons.mp hmem with hminus | hmem
  · exact absurd hminus (by decide)
  · -- the character is one of those from 39 to '0'
    have hchar := charOf_neg h
    have hlt := Nat.mod_lt (NumType.val num).natAbs (show 10 > 0 by decide)
    rw [← List.mem_singleton.mp hmem] at hchar
    change 0 = _ at hchar
    omega

end Formatter

/-! ## §4. What is read. -/

section Parser

variable {acc : Nat}

theorem intOf_natCast (x : Nat) :
    intOf (x : Int) = if x < 2 ^ 31 then some (Int32.ofNat x) else none := by
  unfold intOf
  by_cases hx : x < 2 ^ 31
  · rw [if_pos hx, if_pos (by omega)]
    rfl
  · rw [if_neg hx, if_neg (by omega)]

/-- `*str - '0'`. -/
theorem digit_toInt {c : UInt8} (hc : isDigit c = true) :
    c.toInt8.toInt - 48 = (digitValue c : Int) := by
  have hrange := (isDigit_iff c).mp hc
  have hc8 : c.toInt8.toInt = (c.toNat : Int) := by
    calc c.toInt8.toInt = (UInt8.ofNat c.toNat).toInt8.toInt := by rw [UInt8.ofNat_toNat]
      _ = (Int8.ofNat c.toNat).toInt := by rw [UInt8.toInt8_ofNat']
      _ = c.toNat := Int8.toInt_ofNat_of_lt (by omega)
  rw [hc8]
  unfold digitValue
  omega

/-- **The loop reads the digits in front**, unless they are worth more than an `int`. -/
theorem atoiLoop_eq (str : Str) : ∀ {acc : Nat}, acc < 2 ^ 31 →
    atoiLoop str (Int32.ofNat acc) = if valueFrom 10 acc (leadingDigits str) < 2 ^ 31 then
      some (Int32.ofNat (valueFrom 10 acc (leadingDigits str))) else none := by
  induction str with
  | nil =>
      intro acc hacc
      exact (if_pos hacc).symm
  | cons c str ih =>
      intro acc hacc
      unfold atoiLoop
      by_cases hc : isDigit c = true
      · have hgrow := le_valueFrom (show 0 < 10 by decide) (acc * 10 + digitValue c)
          (leadingDigits str)
        have htens : (Int32.ofNat acc).toInt * 10 = ((acc * 10 : Nat) : Int) := by
          rw [Int32.toInt_ofNat_of_lt hacc]
          omega
        rw [if_pos hc, leadingDigits_cons hc, valueFrom_cons, htens, intOf_natCast]
        by_cases hfit : acc * 10 < 2 ^ 31
        · have hnext : (Int32.ofNat (acc * 10)).toInt + (c.toInt8.toInt - 48)
              = ((acc * 10 + digitValue c : Nat) : Int) := by
            rw [Int32.toInt_ofNat_of_lt hfit, digit_toInt hc]
            omega
          rw [if_pos hfit, Option.bind_some, hnext, intOf_natCast]
          by_cases hfit' : acc * 10 + digitValue c < 2 ^ 31
          · rw [if_pos hfit', Option.bind_some]
            exact ih hfit'
          · rw [if_neg hfit', if_neg (by omega), Option.bind_none]
        · rw [if_neg hfit, if_neg (by omega), Option.bind_none]
      · rw [if_neg hc, leadingDigits_stop hc, valueFrom_nil, if_pos hacc]

/-- What the digits behind the sign are worth. -/
def leadingValue (str : Str) : Nat := valueFrom 10 0 (leadingDigits (signOf str).2)

theorem signOf_cases (str : Str) : (signOf str).1 = 1 ∨ (signOf str).1 = -1 := by
  unfold signOf
  split
  · exact Or.inl rfl
  · split
    · exact Or.inr rfl
    · split
      · exact Or.inl rfl
      · exact Or.inl rfl

/-- **What `atoi` reads**, for every string: the digits behind the sign, if they are worth
no more than the largest `int`. -/
theorem atoi_eq (str : Str) :
    atoi str = if leadingValue str < 2 ^ 31 then
      some (Int32.ofInt (leadingValue str * (signOf str).1.toInt)) else none := by
  have hloop : atoiLoop (signOf str).2 0 = if leadingValue str < 2 ^ 31 then
      some (Int32.ofNat (leadingValue str)) else none := atoiLoop_eq _ (by decide)
  unfold atoi
  rw [hloop]
  by_cases hfit : leadingValue str < 2 ^ 31
  · rw [if_pos hfit, if_pos hfit, Option.bind_some, Int32.toInt_ofNat_of_lt hfit]
    apply if_pos
    rcases signOf_cases str with hsign | hsign
    · rw [hsign, show (1 : Int32).toInt = 1 from rfl]
      omega
    · rw [hsign, show (-1 : Int32).toInt = -1 from rfl]
      omega
  · rw [if_neg hfit, if_neg hfit, Option.bind_none]

theorem signOf_decimal (n : Int) :
    signOf (decimal n) = (if n < 0 then -1 else 1, (numeral 10 n.natAbs).map digitChar) := by
  have hds := isNumeral_numeral (b := 10) (by decide) n.natAbs
  unfold decimal signText
  by_cases hn : n < 0
  · rw [if_pos hn, if_pos hn]
    rfl
  · rw [if_neg hn, if_neg hn, List.nil_append]
    cases heq : numeral 10 n.natAbs with
    | nil => exact absurd heq hds.ne_nil
    | cons d ds =>
        -- a digit is neither of the signs
        have hd := hds.digit_lt d (heq ▸ List.mem_cons_self)
        have hminus : digitChar d ≠ minus := digitChar_ne hd (by decide)
        have hplus : digitChar d ≠ plus := digitChar_ne hd (by decide)
        rw [List.map_cons]
        show (if digitChar d = minus then _ else if digitChar d = plus then _ else _) = _
        rw [if_neg hminus, if_neg hplus]

theorem leadingValue_decimal (n : Int) : leadingValue (decimal n) = n.natAbs := by
  have hds := isNumeral_numeral (b := 10) (by decide) n.natAbs
  unfold leadingValue
  rw [signOf_decimal, leadingDigits_map hds.digit_lt, valueFrom_numeral]

/-- **What `atoi` reads of a canonical form**: the number, but not the smallest `int`, whose
digits are worth more than the largest. -/
theorem atoi_decimal (n : Int) :
    atoi (decimal n) = if n.natAbs < 2 ^ 31 then some (Int32.ofInt n) else none := by
  rw [atoi_eq, leadingValue_decimal, signOf_decimal]
  by_cases hn : n < 0
  · rw [if_pos hn, show (-1 : Int32).toInt = -1 from rfl, show (n.natAbs : Int) * -1 = n by omega]
  · rw [if_neg hn, show (1 : Int32).toInt = 1 from rfl, show (n.natAbs : Int) * 1 = n by omega]

/-- Nothing in front of '1' is worth anything. -/
theorem leadingValue_sign {c : UInt8} (hc : c.toNat ≤ 48) : leadingValue [minus, c] = 0 := by
  have hrest : (signOf [minus, c]).2 = [c] := rfl
  unfold leadingValue
  rw [hrest]
  by_cases hdigit : isDigit c = true
  · have hvalue : digitValue c = 0 := Nat.sub_eq_zero_of_le hc
    rw [leadingDigits_cons hdigit, hvalue]
    rfl
  · rw [leadingDigits_stop hdigit]
    rfl

end Parser

/-! ## §5. Written and read. -/

/-- **A number below zero is lost**: its text is no canonical form, and reads as zero. -/
theorem numToString_neg_lost {n : Int32} (hn : n.toInt < 0) :
    ∃ text, numToString n = some text ∧ atoi text = some 0 ∧ ¬ Canonical text n.toInt := by
  have hval : NumType.val n = n.toInt := rfl
  have hzero : leadingValue [minus, charOf (NumType.toInt32 (n % 10))] = 0 := by
    apply leadingValue_sign
    rw [charOf_neg (show NumType.val n < 0 from hn)]
    exact Nat.sub_le 48 _
  refine ⟨_, numToString_of_neg (hval ▸ hn), ?_, ?_⟩
  · rw [atoi_eq, hzero, if_pos (by decide)]
    rfl
  · intro hcanonical
    rw [canonical_iff] at hcanonical
    rw [hcanonical, leadingValue_decimal] at hzero
    omega

/-- **When formatting and parsing agree**: for the numbers from zero on. -/
theorem num_to_string_iff (n : Int32) :
    (∃ text, numToString n = some text ∧ atoi text = some n ∧ Canonical text n.toInt) ↔ 0 ≤ n := by
  have hle : 0 ≤ n ↔ 0 ≤ n.toInt := Int32.le_iff_toInt_le
  rw [hle]
  constructor
  · intro h
    obtain ⟨text, htext, -, hcanonical⟩ := h
    by_contra hneg
    obtain ⟨text', htext', -, hlost⟩ := numToString_neg_lost (not_le.mp hneg)
    rw [htext, Option.some.injEq] at htext'
    rw [← htext'] at hlost
    exact hlost hcanonical
  · intro hn
    refine ⟨decimal n.toInt, numToString_of_nonneg hn, ?_, canonical_iff.mpr rfl⟩
    have hlt := Int32.toInt_lt n
    rw [atoi_decimal, if_pos (by omega), Int32.ofInt_toInt]

/-- The text of -10 is "-0". -/
theorem num_to_string_minus_ten :
    ¬ ∀ n : Int32, ∃ text, numToString n = some text ∧ atoi text = some n
      ∧ Canonical text n.toInt := by
  intro hclaim
  obtain ⟨text, htext, hread, -⟩ := hclaim (-10)
  have hwritten : numToString (-10 : Int32) = some [minus, zero] := by decide
  rw [hwritten, Option.some.injEq] at htext
  rw [← htext] at hread
  exact absurd hread (by decide)

/-! ## §6. The names of drives. -/

/-- What the driver gives a name to: the drives, and the partitions of one. -/
inductive Device where
  | drive (driveCount : UInt64)
  | partition (driveCount : UInt64) (minor : UInt16)
  deriving DecidableEq

/-- `"ahci"`. -/
def ahci : Str := [97, 104, 99, 105]

/-- `"p"`. -/
def partitionLetter : Str := [112]

/-- `drive_name`. -/
def driveName (driveCount : UInt64) : Option Str := (numToString driveCount).map (ahci ++ ·)

/-- The name `find_partitions` adds for a partition of the disk. -/
def partitionName (diskName : Str) (minor : UInt16) : Option Str :=
  (numToString minor).map (diskName ++ partitionLetter ++ ·)

def Device.name : Device → Option Str
  | .drive driveCount => driveName driveCount
  | .partition driveCount minor => (driveName driveCount).bind (partitionName · minor)

/-- What stands behind the number of the drive. -/
def Device.suffix : Device → Str
  | .drive _ => []
  | .partition _ minor => partitionLetter ++ (numeral 10 minor.toNat).map digitChar

def Device.driveCount : Device → UInt64
  | .drive driveCount => driveCount
  | .partition driveCount _ => driveCount

theorem decimal_natCast (n : Nat) : decimal (n : Int) = (numeral 10 n).map digitChar := by
  unfold decimal signText
  rw [if_neg (by omega), List.nil_append, Int.natAbs_natCast]

theorem driveName_eq (driveCount : UInt64) :
    driveName driveCount = some (ahci ++ (numeral 10 driveCount.toNat).map digitChar) := by
  have htext : decimal (NumType.val driveCount) = (numeral 10 driveCount.toNat).map digitChar :=
    decimal_natCast _
  unfold driveName
  rw [numToString_of_nonneg (Int.natCast_nonneg driveCount.toNat), htext, Option.map_some]

theorem partitionName_eq (diskName : Str) (minor : UInt16) :
    partitionName diskName minor
      = some (diskName ++ partitionLetter ++ (numeral 10 minor.toNat).map digitChar) := by
  have htext : decimal (NumType.val minor) = (numeral 10 minor.toNat).map digitChar :=
    decimal_natCast _
  unfold partitionName
  rw [numToString_of_nonneg (Int.natCast_nonneg minor.toNat), htext, Option.map_some]

theorem Device.name_eq (device : Device) :
    device.name
      = some (ahci ++ ((numeral 10 device.driveCount.toNat).map digitChar ++ device.suffix)) := by
  cases device with
  | drive driveCount =>
      show driveName driveCount = some (ahci ++ (_ ++ []))
      rw [driveName_eq, List.append_nil]
      rfl
  | partition driveCount minor =>
      show (driveName driveCount).bind (partitionName · minor)
        = some (ahci ++ (_ ++ (partitionLetter ++ _)))
      rw [driveName_eq, Option.bind_some, partitionName_eq, List.append_assoc, List.append_assoc]
      rfl

/-- A number and what follows it, when that is no digit. -/
theorem numeral_append_inj {a b : Nat} {r r' : Str} (hr : leadingDigits r = [])
    (hr' : leadingDigits r' = [])
    (h : (numeral 10 a).map digitChar ++ r = (numeral 10 b).map digitChar ++ r') :
    a = b ∧ r = r' := by
  have hnumeral : numeral 10 a = numeral 10 b := by
    have hdigits := congrArg leadingDigits h
    rw [leadingDigits_append (isNumeral_numeral (by decide) a).digit_lt,
      leadingDigits_append (isNumeral_numeral (by decide) b).digit_lt, hr, hr', List.append_nil,
      List.append_nil] at hdigits
    exact hdigits
  constructor
  · rw [← valueFrom_numeral 10 a, hnumeral, valueFrom_numeral]
  · rw [hnumeral] at h
    exact List.append_cancel_left h

theorem Device.leadingDigits_suffix (device : Device) : leadingDigits device.suffix = [] := by
  cases device with
  | drive driveCount => rfl
  | partition driveCount minor => exact leadingDigits_stop (by decide)

/-- **Every device has a name, and no two have the same.** -/
theorem device_name_injective :
    (∀ device : Device, device.name ≠ none) ∧ Function.Injective Device.name := by
  constructor
  · intro device
    rw [device.name_eq]
    exact Option.some_ne_none _
  · intro device device' h
    rw [device.name_eq, device'.name_eq, Option.some.injEq] at h
    obtain ⟨hcount, hsuffix⟩ := numeral_append_inj device.leadingDigits_suffix
      device'.leadingDigits_suffix (List.append_cancel_left h)
    have hcount := UInt64.toNat_inj.mp hcount
    cases device with
    | drive driveCount =>
        cases device' with
        | drive driveCount' => rw [show driveCount = driveCount' from hcount]
        | partition driveCount' minor' => cases hsuffix
    | partition driveCount minor =>
        cases device' with
        | drive driveCount' => cases hsuffix
        | partition driveCount' minor' =>
            have htail := List.append_cancel_left
              (show partitionLetter ++ (numeral 10 minor.toNat).map digitChar
                = partitionLetter ++ (numeral 10 minor'.toNat).map digitChar from hsuffix)
            rw [← List.append_nil ((numeral 10 minor.toNat).map digitChar),
              ← List.append_nil ((numeral 10 minor'.toNat).map digitChar)] at htail
            have hminor := UInt16.toNat_inj.mp (numeral_append_inj rfl rfl htail).1
            rw [show driveCount = driveCount' from hcount, hminor]

end MierOS.Stdlib.NumToString
