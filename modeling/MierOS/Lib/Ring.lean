/-
  MierOS.Lib.Ring
  **A RING OF `n` SLOTS WITH TWO HEADS**, one slot kept free.

  The queue between the read head `r` and the write head `w` is
  `contents n buf r w`; equal heads are the empty ring, and a write head one
  behind the read head is the full one.

  Main results: `contents_push`, `contents_pop`, `contents_eq_nil_iff`,
  `slot_inj`, `next_ne_of_pop`.
-/
import Mathlib.Data.List.Basic
import Mathlib.Data.Nat.ModEq
import Mathlib.Logic.Function.Basic

namespace MierOS.Lib.Ring

variable {α : Type*}

/-- The slot after `i`. -/
def next (n i : Nat) : Nat := (i + 1) % n

/-- The number of queued elements. -/
def count (n r w : Nat) : Nat := if r ≤ w then w - r else w + n - r

/-- The queued elements, oldest first. -/
def contents (n : Nat) (buf : Nat → α) (r w : Nat) : List α :=
  (List.range (count n r w)).map (fun i => buf ((r + i) % n))

variable {n r w : Nat}

theorem next_lt (h : r < n) : next n r < n := Nat.mod_lt _ (by omega)

theorem next_eq (h : r < n) : next n r = if r + 1 = n then 0 else r + 1 := by
  unfold next
  split
  · rename_i heq
    rw [heq, Nat.mod_self]
  · exact Nat.mod_eq_of_lt (by omega)

theorem count_lt (hr : r < n) (hw : w < n) : count n r w < n := by
  unfold count
  split <;> omega

/-- The write head sits `count` slots after the read head. -/
theorem add_count_mod (hr : r < n) (hw : w < n) : (r + count n r w) % n = w := by
  unfold count
  split
  · rw [show r + (w - r) = w by omega]
    exact Nat.mod_eq_of_lt hw
  · rw [show r + (w + n - r) = w + n by omega, Nat.add_mod_right]
    exact Nat.mod_eq_of_lt hw

/-- Fewer than `n` slots apart, two offsets name different slots. -/
theorem add_mod_ne {i j : Nat} (hij : i < j) (hj : j < n) : (r + i) % n ≠ (r + j) % n := by
  intro heq
  have hmod : Nat.ModEq n i j := Nat.ModEq.add_left_cancel' r heq
  have heq' : i = j := hmod.eq_of_lt_of_lt (by omega) hj
  omega

/-- Offsets below `n` name the same slot only when they are the same. -/
theorem slot_inj {i j : Nat} (hi : i < n) (hj : j < n) (h : (r + i) % n = (r + j) % n) : i = j := by
  rcases Nat.lt_trichotomy i j with hlt | heq | hgt
  · exact absurd h (add_mod_ne hlt hj)
  · exact heq
  · exact absurd h.symm (add_mod_ne hgt hi)

theorem slot_eq_self_iff {i : Nat} (hr : r < n) (hi : i < n) : (r + i) % n = r ↔ i = 0 := by
  constructor
  · intro h
    refine slot_inj hi (by omega) (h.trans ?_)
    rw [Nat.add_zero, Nat.mod_eq_of_lt hr]
  · rintro rfl
    rw [Nat.add_zero, Nat.mod_eq_of_lt hr]

/-- The slots seen from the next one. -/
theorem slot_next (r i : Nat) : ((r + 1) % n + i) % n = (r + (i + 1)) % n := by
  rw [Nat.mod_add_mod, Nat.add_assoc, Nat.add_comm 1 i]

theorem count_push (hr : r < n) (hw : w < n) (hfull : next n w ≠ r) :
    count n r (next n w) = count n r w + 1 := by
  rw [next_eq hw] at hfull ⊢
  unfold count
  split_ifs at hfull ⊢ <;> omega

theorem count_pop (hr : r < n) (hw : w < n) (hne : r ≠ w) :
    count n r w = count n (next n r) w + 1 := by
  rw [next_eq hr]
  unfold count
  split_ifs <;> omega

/-- **Equal heads are the empty ring.** -/
theorem contents_eq_nil_iff (hr : r < n) (buf : Nat → α) :
    contents n buf r w = [] ↔ r = w := by
  unfold contents
  rw [List.map_eq_nil_iff, List.range_eq_nil]
  unfold count
  split <;> omega

/-- **Push.** -/
theorem contents_push (hr : r < n) (hw : w < n) (hfull : next n w ≠ r) (buf : Nat → α) (b : α) :
    contents n (Function.update buf w b) r (next n w) = contents n buf r w ++ [b] := by
  unfold contents
  rw [count_push hr hw hfull, List.range_succ, List.map_append, List.map_singleton,
    add_count_mod hr hw, Function.update_self]
  congr 1
  apply List.map_congr_left
  intro i hi
  have hlt : i < count n r w := List.mem_range.mp hi
  have hslot : (r + i) % n ≠ w := by
    have hne := add_mod_ne (r := r) hlt (count_lt hr hw)
    rw [add_count_mod hr hw] at hne
    exact hne
  exact Function.update_of_ne hslot b buf

/-- **Pop.** -/
theorem contents_pop (hr : r < n) (hw : w < n) (hne : r ≠ w) (buf : Nat → α) :
    contents n buf r w = buf r :: contents n buf (next n r) w := by
  unfold contents
  rw [count_pop hr hw hne, List.range_succ_eq_map, List.map_cons, List.map_map, Nat.add_zero,
    Nat.mod_eq_of_lt hr]
  congr 1
  apply List.map_congr_left
  intro i _
  show buf ((r + (i + 1)) % n) = buf ((next n r + i) % n)
  unfold next
  rw [Nat.mod_add_mod]
  congr 2
  omega

/-- A ring that is not full is not full after a pop. -/
theorem next_ne_of_pop (hr : r < n) (hw : w < n) (hne : r ≠ w) : next n w ≠ next n r := by
  rw [next_eq hr, next_eq hw]
  split_ifs <;> omega

end MierOS.Lib.Ring
