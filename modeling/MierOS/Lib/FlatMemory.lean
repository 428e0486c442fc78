/-
  MierOS.Lib.FlatMemory
  **NUMBERS AND RECORDS IN A FLAT MEMORY**: bytes at natural numbers as
  addresses, little-endian.

  Main results: `load_store_same`, `load_store_of_disjoint`, `get_set_same`,
  `get_set_of_disjoint`, `copyUnits_spec`.
-/
import Mathlib.Algebra.Group.Nat.Defs

namespace MierOS.Lib

/-- A memory of bytes. -/
abbrev FlatMemory := Nat → BitVec 8

namespace FlatMemory

/-! ## §1. Numbers. -/

/-- The `n` bytes from `addr` as a number. -/
def load (m : FlatMemory) : Nat → Nat → Nat
  | 0, _ => 0
  | n + 1, addr => (m addr).toNat + 256 * load m n (addr + 1)

/-- Store a number in the `n` bytes from `addr`. -/
def store (m : FlatMemory) (n addr value : Nat) : FlatMemory := fun x =>
  if addr ≤ x ∧ x < addr + n then BitVec.ofNat 8 (value / 256 ^ (x - addr)) else m x

variable {m m' : FlatMemory} {n k addr addr' value x : Nat}

theorem store_in (h : addr ≤ x ∧ x < addr + n) :
    store m n addr value x = BitVec.ofNat 8 (value / 256 ^ (x - addr)) := if_pos h

/-- **Frame**: elsewhere a store changes nothing. -/
theorem store_out (h : x < addr ∨ addr + n ≤ x) : store m n addr value x = m x :=
  if_neg (by omega)

/-- What is loaded depends on the bytes that are read. -/
theorem load_congr (h : ∀ x, addr ≤ x → x < addr + n → m' x = m x) :
    load m' n addr = load m n addr := by
  induction n generalizing addr with
  | zero => rfl
  | succ n ih =>
      show (m' addr).toNat + 256 * load m' n (addr + 1) = _
      rw [h addr (Nat.le_refl _) (by omega), ih fun x hlo hhi => h x (by omega) (by omega)]
      rfl

/-- Bytes that are the digits of a number. -/
theorem load_of_digits (h : ∀ i, i < n → m (addr + i) = BitVec.ofNat 8 (value / 256 ^ i)) :
    load m n addr = value % 256 ^ n := by
  induction n generalizing addr value with
  | zero =>
      show 0 = value % 1
      omega
  | succ n ih =>
      -- the lowest digit is the first byte, the others are those of the rest
      have hrest : load m n (addr + 1) = value / 256 % 256 ^ n := by
        apply ih
        intro i hi
        have hdigit := h (i + 1) (by omega)
        rw [Nat.pow_succ', ← Nat.div_div_eq_div_mul] at hdigit
        rw [← hdigit, Nat.add_assoc, Nat.add_comm 1 i]
      have hfirst := h 0 (by omega)
      rw [Nat.add_zero, Nat.pow_zero, Nat.div_one] at hfirst
      show (m addr).toNat + 256 * load m n (addr + 1) = _
      rw [hrest, hfirst, BitVec.toNat_ofNat, show 256 ^ (n + 1) = 256 * 256 ^ n from Nat.pow_succ']
      exact Nat.mod_mul.symm

theorem load_store_same : load (store m n addr value) n addr = value % 256 ^ n := by
  apply load_of_digits
  intro i hi
  rw [store_in ⟨Nat.le_add_right _ _, by omega⟩, Nat.add_sub_cancel_left]

theorem load_store_of_disjoint (h : addr + n ≤ addr' ∨ addr' + k ≤ addr) :
    load (store m n addr value) k addr' = load m k addr' :=
  load_congr fun _ _ _ => store_out (by omega)

/-- The bytes of what is loaded. -/
theorem digit_load {i : Nat} (hi : i < n) :
    BitVec.ofNat 8 (load m n addr / 256 ^ i) = m (addr + i) := by
  induction n generalizing addr i with
  | zero => exact absurd hi (Nat.not_lt_zero i)
  | succ n ih =>
      have hbyte := (m addr).isLt
      cases i with
      | zero =>
          apply BitVec.eq_of_toNat_eq
          rw [BitVec.toNat_ofNat, Nat.pow_zero, Nat.div_one]
          show ((m addr).toNat + 256 * load m n (addr + 1)) % 2 ^ 8 = (m addr).toNat
          omega
      | succ i =>
          have hrest : load m (n + 1) addr / 256 = load m n (addr + 1) := by
            show ((m addr).toNat + 256 * load m n (addr + 1)) / 256 = _
            omega
          rw [Nat.pow_succ', ← Nat.div_div_eq_div_mul, hrest, ih (by omega), Nat.add_assoc,
            Nat.add_comm 1 i]

/-! ## §2. Records. -/

/-- A field of a record: where it lies and how many bytes it has. -/
structure Field where
  offset : Nat
  width : Nat
  deriving Repr, DecidableEq

/-- `((record*)addr)->field`. -/
def get (m : FlatMemory) (addr : Nat) (f : Field) : Nat := load m f.width (addr + f.offset)

/-- `((record*)addr)->field = value`. -/
def set (m : FlatMemory) (addr : Nat) (f : Field) (value : Nat) : FlatMemory :=
  store m f.width (addr + f.offset) value

variable {f g : Field}

theorem get_set_same : get (set m addr f value) addr f = value % 256 ^ f.width :=
  load_store_same

theorem get_set_of_disjoint
    (h : addr + f.offset + f.width ≤ addr' + g.offset ∨ addr' + g.offset + g.width ≤ addr + f.offset) :
    get (set m addr f value) addr' g = get m addr' g := load_store_of_disjoint h

theorem set_out (h : x < addr + f.offset ∨ addr + f.offset + f.width ≤ x) :
    set m addr f value x = m x := store_out h

/-- A field depends on its own bytes. -/
theorem get_congr (h : ∀ x, addr + f.offset ≤ x → x < addr + f.offset + f.width → m' x = m x) :
    get m' addr f = get m addr f := load_congr h

/-- Storing what is there changes nothing. -/
theorem set_get (m : FlatMemory) (addr : Nat) (f : Field) : set m addr f (get m addr f) = m := by
  funext x
  by_cases hin : addr + f.offset ≤ x ∧ x < addr + f.offset + f.width
  · have hdigit : BitVec.ofNat 8 (load m f.width (addr + f.offset) / 256 ^ (x - (addr + f.offset)))
        = m (addr + f.offset + (x - (addr + f.offset))) := digit_load (by omega)
    rw [Nat.add_sub_cancel' hin.1] at hdigit
    exact (store_in hin).trans hdigit
  · exact store_out (by omega)

/-! ## §3. Several stores. -/

/-- A number that goes to an address. -/
structure Store where
  addr : Nat
  width : Nat
  value : Nat
  deriving Repr, DecidableEq

/-- The store of a field. -/
def Store.field (addr : Nat) (f : Field) (value : Nat) : Store := ⟨addr + f.offset, f.width, value⟩

/-- The memory after all of them, in order. -/
def storeAll (m : FlatMemory) (ws : List Store) : FlatMemory :=
  ws.foldl (fun m w => store m w.width w.addr w.value) m

/-- No byte is written by both. -/
def Store.Apart (w w' : Store) : Prop :=
  w.addr + w.width ≤ w'.addr ∨ w'.addr + w'.width ≤ w.addr

variable {w : Store} {ws : List Store}

theorem storeAll_append (ws ws' : List Store) :
    storeAll m (ws ++ ws') = storeAll (storeAll m ws) ws' := List.foldl_append

/-- **Frame** of several stores. -/
theorem storeAll_out (h : ∀ w ∈ ws, x < w.addr ∨ w.addr + w.width ≤ x) :
    storeAll m ws x = m x := by
  induction ws generalizing m with
  | nil => rfl
  | cons v ws ih =>
      show storeAll (store m v.width v.addr v.value) ws x = m x
      rw [ih fun w hw => h w (List.mem_cons_of_mem v hw),
        store_out (h v List.mem_cons_self)]

theorem load_storeAll_of_apart
    (h : ∀ w ∈ ws, addr + n ≤ w.addr ∨ w.addr + w.width ≤ addr) :
    load (storeAll m ws) n addr = load m n addr := by
  apply load_congr
  intro x hlo hhi
  apply storeAll_out
  intro w hw
  have hw' := h w hw
  omega

/-- **Of stores that do not overlap each one is there in the end.** -/
theorem load_storeAll (hapart : ws.Pairwise Store.Apart) (hw : w ∈ ws) :
    load (storeAll m ws) w.width w.addr = w.value % 256 ^ w.width := by
  induction ws generalizing m with
  | nil => exact absurd hw List.not_mem_nil
  | cons v ws ih =>
      obtain ⟨hv, hrest⟩ := List.pairwise_cons.mp hapart
      show load (storeAll (store m v.width v.addr v.value) ws) w.width w.addr = _
      rcases List.mem_cons.mp hw with rfl | hw
      · -- the first store is kept by all later ones
        rw [load_storeAll_of_apart (fun u hu => hv u hu), load_store_same]
      · exact ih hrest hw

/-! ## §4. Copies. -/

/-- `while(count--) *dest++ = *src++`, with units of `width` bytes. -/
def copyUnits (width : Nat) : Nat → FlatMemory → Nat → Nat → FlatMemory
  | 0, m, _, _ => m
  | count + 1, m, dest, src =>
      copyUnits width count (store m width dest (load m width src)) (dest + width) (src + width)

/-- **A copy between ranges that do not overlap.** -/
theorem copyUnits_spec {width : Nat} {dest src : Nat} {count : Nat}
    (hapart : src + count * width ≤ dest ∨ dest + count * width ≤ src) (x : Nat) :
    copyUnits width count m dest src x
      = if dest ≤ x ∧ x < dest + count * width then m (src + (x - dest)) else m x := by
  induction count generalizing m dest src with
  | zero =>
      rw [if_neg (by omega)]
      rfl
  | succ count ih =>
      have hmul : (count + 1) * width = count * width + width := Nat.succ_mul count width
      rw [hmul] at hapart ⊢
      show copyUnits width count _ (dest + width) (src + width) x = _
      rw [ih (by omega)]
      by_cases hlater : dest + width ≤ x ∧ x < dest + width + count * width
      · -- a unit copied later: the first one leaves its source alone
        rw [if_pos hlater, if_pos (by omega), store_out (by omega)]
        congr 1
        omega
      · rw [if_neg hlater]
        by_cases hfirst : dest ≤ x ∧ x < dest + width
        · rw [store_in hfirst, digit_load (by omega), if_pos (by omega)]
        · rw [store_out (by omega), if_neg (by omega)]

end FlatMemory

end MierOS.Lib
