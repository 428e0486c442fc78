/-
  MierOS.Lib.IndexTree
  **A ROW OF INDEX TREES**, the way block maps number their leaves.

  A tree of depth `d` is a block of `b` words that point to trees of depth `d - 1`,
  and a tree of depth 0 is a leaf.  The leaves of a row of trees, each a level deeper
  than the one before, are numbered from left to right.

  Main results: `digits`, `locate`, `locate_injective`, `slot_injective`.
-/
import Mathlib.Algebra.Group.Nat.Defs
import Mathlib.Data.List.Basic
import Mathlib.Data.Set.Basic

namespace MierOS.Lib.IndexTree

variable {b d k n m : Nat} {l l' : List Nat}

/-! ## §1. One tree. -/

/-- The `d` digits of `n` in base `b`, the most significant one first. -/
def digits (b : Nat) : Nat → Nat → List Nat
  | 0, _ => []
  | d + 1, n => n / b ^ d :: digits b d (n % b ^ d)

theorem digits_length (b d n : Nat) : (digits b d n).length = d := by
  induction d generalizing n with
  | zero => rfl
  | succ d ih => rw [digits, List.length_cons, ih]

theorem digits_lt (hb : 0 < b) (hn : n < b ^ d) : ∀ x ∈ digits b d n, x < b := by
  induction d generalizing n with
  | zero => exact fun x hx => absurd hx List.not_mem_nil
  | succ d ih =>
      intro x hx
      have hpos : 0 < b ^ d := Nat.pow_pos hb
      rcases List.mem_cons.mp hx with rfl | hx
      · rw [Nat.div_lt_iff_lt_mul hpos, ← Nat.pow_succ']
        exact hn
      · exact ih (Nat.mod_lt n hpos) x hx

theorem digits_injective (hb : 0 < b) (hn : n < b ^ d) (hm : m < b ^ d)
    (heq : digits b d n = digits b d m) : n = m := by
  induction d generalizing n m with
  | zero => exact (Nat.lt_one_iff.mp hn).trans (Nat.lt_one_iff.mp hm).symm
  | succ d ih =>
      have hpos : 0 < b ^ d := Nat.pow_pos hb
      obtain ⟨hdiv, hrest⟩ := List.cons.inj heq
      have hmod := ih (Nat.mod_lt n hpos) (Nat.mod_lt m hpos) hrest
      rw [← Nat.div_add_mod n (b ^ d), ← Nat.div_add_mod m (b ^ d), hdiv, hmod]

/-! ## §2. A row of trees. -/

/-- The number of leaves of `k` trees, the first of depth `d`. -/
def leaves (b : Nat) : Nat → Nat → Nat
  | 0, _ => 0
  | k + 1, d => b ^ d + leaves b k (d + 1)

/-- The way to leaf `n` of `k` trees, the first of depth `d`. -/
def locate (b : Nat) : Nat → Nat → Nat → Option (List Nat)
  | 0, _, _ => none
  | k + 1, d, n => if n < b ^ d then some (digits b d n) else locate b k (d + 1) (n - b ^ d)

theorem locate_isSome (hn : n < leaves b k d) : ∃ l, locate b k d n = some l := by
  induction k generalizing d n with
  | zero => exact absurd hn (Nat.not_lt_zero n)
  | succ k ih =>
      unfold locate
      by_cases hfirst : n < b ^ d
      · exact ⟨_, if_pos hfirst⟩
      · rw [if_neg hfirst]
        refine ih ?_
        rw [leaves] at hn
        omega

/-- **Which tree**: the way is as long as the tree is deep. -/
theorem locate_depth (h : locate b k d n = some l) : d ≤ l.length ∧ l.length < d + k := by
  induction k generalizing d n with
  | zero => exact absurd h (by simp [locate])
  | succ k ih =>
      unfold locate at h
      by_cases hfirst : n < b ^ d
      · rw [if_pos hfirst] at h
        rw [← Option.some.inj h, digits_length]
        omega
      · rw [if_neg hfirst] at h
        have := ih h
        omega

theorem locate_lt (hb : 0 < b) (h : locate b k d n = some l) : ∀ x ∈ l, x < b := by
  induction k generalizing d n with
  | zero => exact absurd h (by simp [locate])
  | succ k ih =>
      unfold locate at h
      by_cases hfirst : n < b ^ d
      · rw [if_pos hfirst] at h
        rw [← Option.some.inj h]
        exact digits_lt hb hfirst
      · rw [if_neg hfirst] at h
        exact ih h

/-- **Different leaves have different ways.** -/
theorem locate_injective (hb : 0 < b) (hn : locate b k d n = some l)
    (hm : locate b k d m = some l) : n = m := by
  induction k generalizing d n m with
  | zero => exact absurd hn (by simp [locate])
  | succ k ih =>
      unfold locate at hn hm
      by_cases hfn : n < b ^ d <;> by_cases hfm : m < b ^ d
      · rw [if_pos hfn] at hn
        rw [if_pos hfm] at hm
        exact digits_injective hb hfn hfm ((Option.some.inj hn).trans (Option.some.inj hm).symm)
      · -- the ways lead into trees of different depths
        rw [if_pos hfn] at hn
        rw [if_neg hfm] at hm
        have hlen := digits_length b d n
        have hdeep := (locate_depth hm).1
        rw [Option.some.inj hn] at hlen
        omega
      · rw [if_neg hfn] at hn
        rw [if_pos hfm] at hm
        have hlen := digits_length b d m
        have hdeep := (locate_depth hn).1
        rw [Option.some.inj hm] at hlen
        omega
      · rw [if_neg hfn] at hn
        rw [if_neg hfm] at hm
        have hsub := ih hn hm
        omega

/-! ## §3. The trees in memory. -/

section Memory

variable (word : Nat → Nat → Nat) (root : Nat → Nat)

/-- What one gets to from a block along a way. -/
def follow (block : Nat) : List Nat → Nat
  | [] => block
  | i :: l => follow (word block i) l

/-- The word that is read last: its block and its index. -/
def slot (l : List Nat) : Nat × Nat := (follow word (root l.length) l.dropLast, l.getLastD 0)

/-- None of the tables on a way is block 0, which stands for a hole. -/
def Allocated (block : Nat) : List Nat → Prop
  | [] => True
  | i :: l => block ≠ 0 ∧ Allocated (word block i) l

/-- The trees have each block once: the last tables on two of the ways `W` are one block
only where they are the same table of the same tree. -/
def NoSharing (W : Set (List Nat)) : Prop :=
  ∀ l ∈ W, ∀ l' ∈ W,
    follow word (root l.length) l.dropLast = follow word (root l'.length) l'.dropLast →
      l.length = l'.length ∧ l.dropLast = l'.dropLast

variable {word : Nat → Nat → Nat} {root : Nat → Nat}

/-- **Different ways end in different words.** -/
theorem slot_injective {W : Set (List Nat)} (hno : NoSharing word root W) (hW : l ∈ W)
    (hW' : l' ∈ W) (hl : l ≠ []) (hl' : l' ≠ [])
    (heq : slot word root l = slot word root l') : l = l' := by
  obtain ⟨hblock, hindex⟩ := Prod.mk.inj heq
  obtain ⟨-, hinit⟩ := hno l hW l' hW' hblock
  obtain rfl | ⟨q, i, rfl⟩ := List.eq_nil_or_concat l
  · exact absurd rfl hl
  · obtain rfl | ⟨q', j, rfl⟩ := List.eq_nil_or_concat l'
    · exact absurd rfl hl'
    · simp only [List.concat_eq_append, List.dropLast_concat, List.getLastD_concat] at hinit hindex ⊢
      rw [hinit, hindex]

end Memory

end MierOS.Lib.IndexTree
