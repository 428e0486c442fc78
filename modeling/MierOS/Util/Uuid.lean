/-
  MierOS.Util.Uuid
  **THE TEXT FORM OF A UUID**: `str_to_uuid` of `uuid.cpp` and `uuid_to_string` of
  `string.hpp`.

  The encoder fills 36 places one by one.  The decoder goes through the string two
  characters at a time, and on a separator it moves its index on by one: the bytes stand
  at the places that `position` lists, sixteen of them.

  Main results: `strToUuid_eq`, `bufferAt_digits`, `uuid_round_trip`.
-/
import Mathlib.Data.List.GetD
import Mathlib.Data.List.TakeWhile
import Mathlib.Tactic.IntervalCases

namespace MierOS.Util.UuidText

/-! ## §1. The code. -/

/-- The characters of a string, without the NUL behind them. -/
abbrev Str := List (BitVec 8)

/-- `uuid_t`. -/
structure Uuid where
  bytes : Vector (BitVec 8) 16
  deriving DecidableEq

/-- `{ }`. -/
def Uuid.zero : Uuid := ⟨Vector.replicate 16 0⟩

/-- `decodeChar(c)`; the characters from 128 on are none of the digits, as they are below
them for the compiler. -/
def decodeChar (c : BitVec 8) : BitVec 8 :=
  if 48 ≤ c ∧ c ≤ 57 then c - 48
  else if 97 ≤ c ∧ c ≤ 102 then c - 97 + 10
  else if 65 ≤ c ∧ c ≤ 70 then c - 65 + 10
  else 255

/-- `nextByte` of two characters. -/
def byteOfDigits (first second : BitVec 8) : BitVec 16 :=
  let c1 := decodeChar first
  let c2 := decodeChar second
  if c1 = 255 ∨ c2 = 255 then BitVec.allOnes 16
  else (c1.setWidth 16 <<< 4) ||| c2.setWidth 16

/-- `str[i]`, with the NUL behind the last character. -/
def charAt (str : Str) (i : Nat) : BitVec 8 := str.getD i 0

/-- `nextByte(str + i)`. -/
def nextByte (str : Str) (i : Nat) : BitVec 16 := byteOfDigits (charAt str i) (charAt str (i + 1))

/-- The variables of the loop of `str_to_uuid`. -/
structure Decoder where
  i : Nat
  byte : Nat
  bytes : Vector (BitVec 8) 16

/-- The loop, with what `str_to_uuid` returns behind it; `none` is a write outside the
sixteen bytes. -/
def decodeLoop (str : Str) (s : Decoder) : Option Uuid :=
  if s.i < 36 then
    let i := if s.i = 8 ∨ s.i = 13 ∨ s.i = 18 ∨ s.i = 23 then s.i + 1 else s.i
    let value := nextByte str i
    if value > 255 then some Uuid.zero
    else if h : s.byte < 16 then
      decodeLoop str
        { i := i + 2, byte := s.byte + 1, bytes := s.bytes.set s.byte (value.setWidth 8) h }
    else none
  else some ⟨s.bytes⟩
termination_by 36 - s.i
decreasing_by
  split <;> omega

/-- `strlen(str)`. -/
def strlen (str : Str) : Nat := (str.takeWhile (· ≠ 0)).length

/-- `str_to_uuid(str)`; `uninitialised` is what stands in the bytes of `uuid` before. -/
def strToUuid (uninitialised : Vector (BitVec 8) 16) (str : Str) : Option Uuid :=
  if strlen str < 36 then some Uuid.zero else decodeLoop str ⟨0, 0, uninitialised⟩

/-- `"0123456789abcdef"`. -/
def lookup (i : BitVec 8) : BitVec 8 :=
  ([48, 49, 50, 51, 52, 53, 54, 55, 56, 57, 97, 98, 99, 100, 101, 102] : Str).getD i.toNat 0

/-- `'-'`. -/
def separator : BitVec 8 := 45

/-- `buffer` of `uuid_to_string`. -/
def buffer (uuid : Uuid) : Str :=
  let b := uuid.bytes
  [lookup (b[0] >>> 4), lookup (b[0] &&& 15), lookup (b[1] >>> 4), lookup (b[1] &&& 15),
    lookup (b[2] >>> 4), lookup (b[2] &&& 15), lookup (b[3] >>> 4), lookup (b[3] &&& 15),
    separator,
    lookup (b[4] >>> 4), lookup (b[4] &&& 15), lookup (b[5] >>> 4), lookup (b[5] &&& 15),
    separator,
    lookup (b[6] >>> 4), lookup (b[6] &&& 15), lookup (b[7] >>> 4), lookup (b[7] &&& 15),
    separator,
    lookup (b[8] >>> 4), lookup (b[8] &&& 15), lookup (b[9] >>> 4), lookup (b[9] &&& 15),
    separator,
    lookup (b[10] >>> 4), lookup (b[10] &&& 15), lookup (b[11] >>> 4), lookup (b[11] &&& 15),
    lookup (b[12] >>> 4), lookup (b[12] &&& 15), lookup (b[13] >>> 4), lookup (b[13] &&& 15),
    lookup (b[14] >>> 4), lookup (b[14] &&& 15), lookup (b[15] >>> 4), lookup (b[15] &&& 15),
    0]

/-- `uuid_to_string(uuid)`: the string up to the first NUL of the buffer. -/
def uuidToString (uuid : Uuid) : Str := (buffer uuid).takeWhile (· ≠ 0)

/-! ## §2. Digits. -/

/-- The hexadecimal digits, in either case. -/
def IsHexDigit (c : BitVec 8) : Prop :=
  48 ≤ c ∧ c ≤ 57 ∨ 97 ≤ c ∧ c ≤ 102 ∨ 65 ≤ c ∧ c ≤ 70

instance (c : BitVec 8) : Decidable (IsHexDigit c) := inferInstanceAs (Decidable (_ ∨ _))

/-- A character in lower case. -/
def toLower (c : BitVec 8) : BitVec 8 := if 65 ≤ c ∧ c ≤ 90 then c + 32 else c

theorem decodeChar_eq_iff (c : BitVec 8) : decodeChar c = 255 ↔ ¬ IsHexDigit c := by
  revert c
  decide +kernel

theorem decodeChar_lt (c : BitVec 8) (h : IsHexDigit c) : decodeChar c < 16 := by
  revert c
  decide +kernel

theorem lookup_decodeChar (c : BitVec 8) (h : IsHexDigit c) : lookup (decodeChar c) = toLower c := by
  revert c
  decide +kernel

/-- Two digits make up a byte that is cut into the two again. -/
theorem halves_of_digits (d₁ d₂ : BitVec 8) (h₁ : d₁ < 16) (h₂ : d₂ < 16) :
    ((d₁.setWidth 16 <<< 4) ||| d₂.setWidth 16 : BitVec 16).setWidth 8 >>> 4 = d₁
      ∧ ((d₁.setWidth 16 <<< 4) ||| d₂.setWidth 16 : BitVec 16).setWidth 8 &&& 15 = d₂
      ∧ ¬ ((d₁.setWidth 16 <<< 4) ||| d₂.setWidth 16 : BitVec 16) > 255 := by
  have hall : ∀ i < 16, ∀ j < 16,
      (((BitVec.ofNat 8 i).setWidth 16 <<< 4) ||| (BitVec.ofNat 8 j).setWidth 16
          : BitVec 16).setWidth 8 >>> 4 = BitVec.ofNat 8 i
        ∧ (((BitVec.ofNat 8 i).setWidth 16 <<< 4) ||| (BitVec.ofNat 8 j).setWidth 16
          : BitVec 16).setWidth 8 &&& 15 = BitVec.ofNat 8 j
        ∧ ¬ (((BitVec.ofNat 8 i).setWidth 16 <<< 4) ||| (BitVec.ofNat 8 j).setWidth 16
          : BitVec 16) > 255 := by decide +kernel
  have hspec := hall d₁.toNat h₁ d₂.toNat h₂
  rw [BitVec.ofNat_toNat, BitVec.ofNat_toNat, BitVec.setWidth_eq, BitVec.setWidth_eq] at hspec
  exact hspec

theorem byteOfDigits_gt_iff (first second : BitVec 8) :
    byteOfDigits first second > 255 ↔ ¬ (IsHexDigit first ∧ IsHexDigit second) := by
  unfold byteOfDigits
  by_cases h : IsHexDigit first ∧ IsHexDigit second
  · obtain ⟨h₁, h₂⟩ := h
    have hboth : ¬ (decodeChar first = 255 ∨ decodeChar second = 255) := by
      rw [decodeChar_eq_iff, decodeChar_eq_iff]
      exact not_or.mpr ⟨not_not.mpr h₁, not_not.mpr h₂⟩
    have hsmall := (halves_of_digits _ _ (decodeChar_lt first h₁) (decodeChar_lt second h₂)).2.2
    rw [if_neg hboth]
    exact iff_of_false hsmall (not_not.mpr ⟨h₁, h₂⟩)
  · have hboth : decodeChar first = 255 ∨ decodeChar second = 255 := by
      rw [decodeChar_eq_iff, decodeChar_eq_iff]
      exact not_and_or.mp h
    rw [if_pos hboth]
    exact iff_of_true (by decide) h

/-- **The digits of a byte** are decoded to it. -/
theorem byteOfDigits_lookup (b : BitVec 8) :
    byteOfDigits (lookup (b >>> 4)) (lookup (b &&& 15)) = b.setWidth 16 := by
  revert b
  decide +kernel

/-- **A byte that was decoded** is written with its digits in lower case. -/
theorem lookup_byteOfDigits {first second : BitVec 8} (h₁ : IsHexDigit first)
    (h₂ : IsHexDigit second) :
    lookup ((byteOfDigits first second).setWidth 8 >>> 4) = toLower first
      ∧ lookup ((byteOfDigits first second).setWidth 8 &&& 15) = toLower second := by
  have hboth : ¬ (decodeChar first = 255 ∨ decodeChar second = 255) := by
    rw [decodeChar_eq_iff, decodeChar_eq_iff]
    exact not_or.mpr ⟨not_not.mpr h₁, not_not.mpr h₂⟩
  obtain ⟨hhigh, hlow, -⟩ := halves_of_digits _ _ (decodeChar_lt first h₁) (decodeChar_lt second h₂)
  unfold byteOfDigits
  rw [if_neg hboth, hhigh, hlow, lookup_decodeChar first h₁, lookup_decodeChar second h₂]
  exact ⟨rfl, rfl⟩

/-! ## §3. Where the bytes stand. -/

/-- The place of the first digit of a byte. -/
def position (k : Nat) : Nat :=
  2 * k + (if 4 ≤ k then 1 else 0) + (if 6 ≤ k then 1 else 0) + (if 8 ≤ k then 1 else 0)
    + (if 10 ≤ k then 1 else 0)

/-- The loop index at the start of the round for a byte, before a separator is skipped. -/
def indexBefore (k : Nat) : Nat := if k = 0 then 0 else position (k - 1) + 2

theorem skip_separator : ∀ k < 16,
    (if indexBefore k = 8 ∨ indexBefore k = 13 ∨ indexBefore k = 18 ∨ indexBefore k = 23
      then indexBefore k + 1 else indexBefore k) = position k ∧ indexBefore k < 36 := by
  decide

/-- Every place of the text is a separator or one of the two digits of a byte. -/
theorem places : ∀ i < 36, (i = 8 ∨ i = 13 ∨ i = 18 ∨ i = 23)
    ∨ ∃ k < 16, i = position k ∨ i = position k + 1 := by
  decide

variable {str : Str} {bytes : Vector (BitVec 8) 16} {uuid : Uuid}

/-- **One round**: the byte `k` is decoded to its place, or the zero uuid is returned. -/
theorem decodeLoop_round {k : Nat} (hk : k < 16) :
    decodeLoop str ⟨indexBefore k, k, bytes⟩
      = if nextByte str (position k) > 255 then some Uuid.zero
        else decodeLoop str ⟨indexBefore (k + 1), k + 1,
          bytes.set k ((nextByte str (position k)).setWidth 8) hk⟩ := by
  obtain ⟨hskip, hlt⟩ := skip_separator k hk
  rw [decodeLoop]
  dsimp only
  rw [if_pos hlt, dif_pos hk, hskip]
  rfl

/-- Behind the sixteenth byte the loop is over. -/
theorem decodeLoop_end : decodeLoop str ⟨indexBefore 16, 16, bytes⟩ = some ⟨bytes⟩ := by
  rw [decodeLoop]
  exact if_neg (show ¬ indexBefore 16 < 36 by decide)

/-- The string has digits at all places of the bytes. -/
def AllDigits (str : Str) : Prop :=
  ∀ k < 16, IsHexDigit (charAt str (position k)) ∧ IsHexDigit (charAt str (position k + 1))

/-- The uuid that the digits spell. -/
def decoded (str : Str) : Uuid :=
  ⟨Vector.ofFn fun k : Fin 16 => (nextByte str (position k)).setWidth 8⟩

/-- **The loop** from the byte `k` on, which is reached when those before it were decoded. -/
theorem decodeLoop_eq (n : Nat) : ∀ {k : Nat} {bytes : Vector (BitVec 8) 16}, k + n = 16 →
    (∀ j, ∀ h : j < 16, j < k → bytes[j] = (nextByte str (position j)).setWidth 8) →
    (∀ j < k, IsHexDigit (charAt str (position j)) ∧ IsHexDigit (charAt str (position j + 1))) →
    (AllDigits str → decodeLoop str ⟨indexBefore k, k, bytes⟩ = some (decoded str))
      ∧ (¬ AllDigits str → decodeLoop str ⟨indexBefore k, k, bytes⟩ = some Uuid.zero) := by
  induction n with
  | zero =>
      intro k bytes hk hdone hdigits
      obtain rfl : k = 16 := hk
      refine ⟨fun _ => ?_, fun hnot => absurd hdigits hnot⟩
      rw [decodeLoop_end]
      refine congrArg (fun b => some (Uuid.mk b)) (Vector.ext fun j hj => ?_)
      rw [hdone j hj hj, Vector.getElem_ofFn]
  | succ n ih =>
      intro k bytes hk hdone hdigits
      have hlt : k < 16 := by omega
      rw [decodeLoop_round hlt]
      by_cases hbad : nextByte str (position k) > 255
      · -- a character that is no digit
        have hnot := (byteOfDigits_gt_iff _ _).mp hbad
        rw [if_pos hbad]
        exact ⟨fun hall => absurd (hall k hlt) hnot, fun _ => rfl⟩
      · have hpair := not_not.mp (mt (byteOfDigits_gt_iff _ _).mpr hbad)
        rw [if_neg hbad]
        refine ih (by omega) (fun j hj hjk => ?_) (fun j hjk => ?_)
        · rw [Vector.getElem_set]
          by_cases heq : k = j
          · rw [if_pos heq, heq]
          · rw [if_neg heq, hdone j hj (by omega)]
        · rcases Nat.lt_succ_iff_lt_or_eq.mp hjk with hjk | rfl
          · exact hdigits j hjk
          · exact hpair

/-- **What the decoder returns.** -/
theorem strToUuid_eq (uninitialised : Vector (BitVec 8) 16) (str : Str) :
    (36 ≤ strlen str ∧ AllDigits str → strToUuid uninitialised str = some (decoded str))
      ∧ (¬ (36 ≤ strlen str ∧ AllDigits str) →
          strToUuid uninitialised str = some Uuid.zero) := by
  obtain ⟨hall, hnot⟩ : (AllDigits str → decodeLoop str ⟨indexBefore 0, 0, uninitialised⟩ = _)
      ∧ (¬ AllDigits str → decodeLoop str ⟨indexBefore 0, 0, uninitialised⟩ = _) :=
    decodeLoop_eq 16 rfl (fun j _ hj => absurd hj (Nat.not_lt_zero j))
      (fun j hj => absurd hj (Nat.not_lt_zero j))
  unfold strToUuid
  by_cases hshort : strlen str < 36
  · rw [if_pos hshort]
    exact ⟨fun h => absurd h.1 (Nat.not_le_of_lt hshort), fun _ => rfl⟩
  · rw [if_neg hshort]
    exact ⟨fun h => hall h.2, fun h => hnot fun hdigits => h ⟨Nat.le_of_not_lt hshort, hdigits⟩⟩

/-! ## §4. The round trip. -/

/-- The places of the separators. -/
def SeparatorPlace (i : Nat) : Prop := i = 8 ∨ i = 13 ∨ i = 18 ∨ i = 23

/-- A text of the form 8-4-4-4-12. -/
structure TextForm (str : Str) : Prop where
  length_eq : str.length = 36
  separators : ∀ i, SeparatorPlace i → charAt str i = separator
  digits : ∀ i < 36, ¬ SeparatorPlace i → IsHexDigit (charAt str i)

/-- The places of the bytes are those that are no separator's. -/
theorem allDigits_iff :
    AllDigits str ↔ ∀ i < 36, ¬ SeparatorPlace i → IsHexDigit (charAt str i) := by
  constructor
  · intro hall i hi hplace
    rcases places i hi with hsep | ⟨k, hk, rfl | rfl⟩
    · exact absurd hsep hplace
    · exact (hall k hk).1
    · exact (hall k hk).2
  · intro hall k hk
    have hplaces : ∀ k < 16, position k + 1 < 36
        ∧ ¬ (position k = 8 ∨ position k = 13 ∨ position k = 18 ∨ position k = 23)
        ∧ ¬ (position k + 1 = 8 ∨ position k + 1 = 13 ∨ position k + 1 = 18 ∨ position k + 1 = 23) := by
      decide
    obtain ⟨hlt, hfirst, hsecond⟩ := hplaces k hk
    exact ⟨hall _ (by omega) hfirst, hall _ hlt hsecond⟩

/-- **What the encoder writes** at the two places of a byte. -/
theorem bufferAt_digits (uuid : Uuid) {k : Nat} (hk : k < 16) :
    charAt (buffer uuid) (position k) = lookup (uuid.bytes[k] >>> 4)
      ∧ charAt (buffer uuid) (position k + 1) = lookup (uuid.bytes[k] &&& 15) := by
  interval_cases k <;> exact ⟨rfl, rfl⟩

theorem bufferAt_separator (uuid : Uuid) {i : Nat} (hi : SeparatorPlace i) :
    charAt (buffer uuid) i = separator := by
  rcases hi with rfl | rfl | rfl | rfl <;> rfl

theorem lookup_ne_zero (b : BitVec 8) : lookup (b >>> 4) ≠ 0 ∧ lookup (b &&& 15) ≠ 0 := by
  revert b
  decide +kernel

theorem bufferAt_ne_zero (uuid : Uuid) {i : Nat} (hi : i < 36) : charAt (buffer uuid) i ≠ 0 := by
  rcases places i hi with hsep | ⟨k, hk, rfl | rfl⟩
  · rw [bufferAt_separator uuid hsep]
    decide
  · rw [(bufferAt_digits uuid hk).1]
    exact (lookup_ne_zero _).1
  · rw [(bufferAt_digits uuid hk).2]
    exact (lookup_ne_zero _).2

/-- Characters that are no NUL, place by place. -/
theorem forall_ne_zero (h : ∀ i < str.length, charAt str i ≠ 0) :
    ∀ c ∈ str, decide (c ≠ 0) = true := by
  intro c hc
  obtain ⟨i, hi, rfl⟩ := List.getElem_of_mem hc
  have hne := h i hi
  unfold charAt at hne
  rw [List.getD_eq_getElem _ _ hi] at hne
  exact decide_eq_true hne

/-- The string that is made of the buffer has all 36 characters. -/
theorem uuidToString_eq (uuid : Uuid) : uuidToString uuid = (buffer uuid).take 36 := by
  have hsplit : buffer uuid = (buffer uuid).take 36 ++ [0] := rfl
  have hfront : ∀ c ∈ (buffer uuid).take 36, decide (c ≠ 0) = true := by
    refine forall_ne_zero fun i hi => ?_
    have hi' : i < 36 := hi
    have hne := bufferAt_ne_zero uuid hi'
    unfold charAt at hne ⊢
    rw [List.getD_eq_getElem?_getD, List.getElem?_take_of_lt hi', ← List.getD_eq_getElem?_getD]
    exact hne
  unfold uuidToString
  conv_lhs => rw [hsplit]
  rw [List.takeWhile_append_of_pos hfront]
  simp

theorem length_uuidToString (uuid : Uuid) : (uuidToString uuid).length = 36 := by
  rw [uuidToString_eq]
  rfl

theorem charAt_uuidToString (uuid : Uuid) {i : Nat} (hi : i < 36) :
    charAt (uuidToString uuid) i = charAt (buffer uuid) i := by
  unfold charAt
  rw [uuidToString_eq, List.getD_eq_getElem?_getD, List.getElem?_take_of_lt hi,
    List.getD_eq_getElem?_getD]

/-- A string without a NUL in it is as long as `strlen` says. -/
theorem strlen_eq (h : ∀ i < str.length, charAt str i ≠ 0) : strlen str = str.length :=
  congrArg List.length (List.takeWhile_eq_self_iff.mpr (forall_ne_zero h))

/-- **Decoding what was encoded.** -/
theorem strToUuid_uuidToString (uninitialised : Vector (BitVec 8) 16) (uuid : Uuid) :
    strToUuid uninitialised (uuidToString uuid) = some uuid := by
  have hbyte : ∀ k, ∀ hk : k < 16,
      nextByte (uuidToString uuid) (position k) = uuid.bytes[k].setWidth 16 := by
    intro k hk
    have hplace : ∀ k < 16, position k + 1 < 36 := by decide
    obtain ⟨hfirst, hsecond⟩ := bufferAt_digits uuid hk
    unfold nextByte
    rw [charAt_uuidToString uuid (by have := hplace k hk; omega), hfirst,
      charAt_uuidToString uuid (hplace k hk), hsecond]
    exact byteOfDigits_lookup _
  have hdigits : AllDigits (uuidToString uuid) := by
    intro k hk
    refine not_not.mp (mt (byteOfDigits_gt_iff _ _).mpr ?_)
    -- the byte that was encoded is not above 255
    have hsmall : ∀ b : BitVec 8, ¬ b.setWidth 16 > (255 : BitVec 16) := by decide +kernel
    rw [show byteOfDigits _ _ = nextByte (uuidToString uuid) (position k) from rfl, hbyte k hk]
    exact hsmall _
  have hlong : 36 ≤ strlen (uuidToString uuid) := by
    rw [strlen_eq fun i hi => ?_, length_uuidToString]
    rw [length_uuidToString] at hi
    rw [charAt_uuidToString uuid hi]
    exact bufferAt_ne_zero uuid hi
  rw [(strToUuid_eq uninitialised _).1 ⟨hlong, hdigits⟩]
  refine congrArg (fun b => some (Uuid.mk b)) (Vector.ext fun k hk => ?_)
  rw [Vector.getElem_ofFn, hbyte k hk]
  exact BitVec.setWidth_setWidth_of_le _ (by decide)

/-- The characters of a text are no NUL. -/
theorem TextForm.ne_zero (h : TextForm str) {i : Nat} (hi : i < 36) : charAt str i ≠ 0 := by
  have hhex : ∀ c : BitVec 8, IsHexDigit c → c ≠ 0 := by decide +kernel
  by_cases hsep : SeparatorPlace i
  · rw [h.separators i hsep]
    decide
  · exact hhex _ (h.digits i hi hsep)

/-- **Encoding what was decoded.** -/
theorem TextForm.uuidToString_decoded (h : TextForm str) :
    uuidToString (decoded str) = str.map toLower := by
  have hdigits := allDigits_iff.mpr h.digits
  have hbytes : ∀ k, ∀ hk : k < 16,
      (decoded str).bytes[k] = (nextByte str (position k)).setWidth 8 := fun k hk =>
    Vector.getElem_ofFn hk
  have hchar : ∀ i < 36, charAt (buffer (decoded str)) i = toLower (charAt str i) := by
    intro i hi
    rcases places i hi with hsep | ⟨k, hk, rfl | rfl⟩
    · rw [bufferAt_separator _ hsep, h.separators i hsep]
      rfl
    · rw [(bufferAt_digits _ hk).1, hbytes k hk]
      exact (lookup_byteOfDigits (hdigits k hk).1 (hdigits k hk).2).1
    · rw [(bufferAt_digits _ hk).2, hbytes k hk]
      exact (lookup_byteOfDigits (hdigits k hk).1 (hdigits k hk).2).2
  apply List.ext_getElem
  · rw [length_uuidToString, List.length_map, h.length_eq]
  · intro i hi hi'
    have hlt : i < 36 := by rw [length_uuidToString] at hi; exact hi
    have hi'' : i < str.length := by rw [h.length_eq]; exact hlt
    have hspec := hchar i hlt
    rw [← charAt_uuidToString _ hlt] at hspec
    unfold charAt at hspec
    rw [List.getD_eq_getElem _ _ hi, List.getD_eq_getElem _ _ hi''] at hspec
    rw [hspec, List.getElem_map]

/-- **THE TEXT FORM ROUND-TRIPS.**  Every uuid is decoded from its text; every text of the
form 8-4-4-4-12 is decoded to a uuid whose text it is, in lower case; a string with a
character that is no digit in the place of one, or with fewer than 36 characters, yields
the zero uuid; and for no string at all is a byte written behind the sixteenth. -/
theorem uuid_round_trip (uninitialised : Vector (BitVec 8) 16) :
    (∀ uuid, strToUuid uninitialised (uuidToString uuid) = some uuid)
      ∧ (∀ str, TextForm str → ∃ uuid, strToUuid uninitialised str = some uuid
          ∧ uuidToString uuid = str.map toLower)
      ∧ (∀ str, (strlen str < 36
            ∨ ∃ i < 36, ¬ SeparatorPlace i ∧ ¬ IsHexDigit (charAt str i)) →
          strToUuid uninitialised str = some Uuid.zero)
      ∧ ∀ str, strToUuid uninitialised str ≠ none := by
  refine ⟨strToUuid_uuidToString uninitialised, fun str h => ?_, fun str hbad => ?_, fun str => ?_⟩
  · have hlong : 36 ≤ strlen str := by
      rw [strlen_eq fun i hi => h.ne_zero (h.length_eq ▸ hi), h.length_eq]
    exact ⟨decoded str, (strToUuid_eq uninitialised str).1 ⟨hlong, allDigits_iff.mpr h.digits⟩,
      h.uuidToString_decoded⟩
  · refine (strToUuid_eq uninitialised str).2 fun ⟨hlong, hdigits⟩ => ?_
    rcases hbad with hshort | ⟨i, hi, hplace, hdigit⟩
    · exact absurd hlong (Nat.not_le_of_lt hshort)
    · exact hdigit (allDigits_iff.mp hdigits i hi hplace)
  · obtain ⟨hgood, hzero⟩ := strToUuid_eq uninitialised str
    by_cases h : 36 ≤ strlen str ∧ AllDigits str
    · rw [hgood h]
      nofun
    · rw [hzero h]
      nofun

end MierOS.Util.UuidText
