/-
  MierOS.Lib.Refs
  **COUNTING REFERENCES.**

  A reference map sends a position (a variable, a table slot, a field of an
  object) to the object it refers to, if any.  `refs f a` is the number of
  positions that refer to `a`.  A reference count kept by a program is right
  when it equals `refs` of the program's reference map, so all that is needed
  is how `refs` moves when ONE position changes:

  Main results: `refs_update`, `refs_pos`, `unique_of_refs_le_one`,
  `refs_lt_card`.

  Maps have finite support (`Finite`): positions are unbounded, references are
  not.
-/
import Mathlib.Data.Set.Card
import Mathlib.Logic.Function.Basic

namespace MierOS.Lib.Refs

variable {ι α β : Type*}

/-- Only finitely many positions refer to something. -/
def Finite (f : ι → Option α) : Prop := {i | f i ≠ none}.Finite

/-- The number of positions that refer to `a`. -/
noncomputable def refs (f : ι → Option α) (a : α) : Nat := {i | f i = some a}.ncard

/-! ## §1. Finite support. -/

theorem Finite.positions {f : ι → Option α} (hf : Finite f) (a : α) : {i | f i = some a}.Finite := by
  apply Set.Finite.subset hf
  intro i hi
  show f i ≠ none
  rw [show f i = some a from hi]
  exact Option.some_ne_none a

theorem finite_none : Finite (fun _ : ι => (none : Option α)) := by
  unfold Finite
  simp

theorem Finite.update [DecidableEq ι] {f : ι → Option α} (hf : Finite f) (i : ι) (v : Option α) :
    Finite (Function.update f i v) := by
  apply Set.Finite.subset (hf.insert i)
  intro j hj
  by_cases hji : j = i
  · exact Or.inl hji
  · -- away from `i` nothing changed
    have hj' : Function.update f i v j ≠ none := hj
    rw [Function.update_of_ne hji] at hj'
    exact Or.inr hj'

/-! ## §2. One position changes. -/

/-- **An empty position starts to refer to `b`.** -/
theorem refs_set_some [DecidableEq ι] [DecidableEq α] {f : ι → Option α} (hf : Finite f) {i : ι}
    (hi : f i = none) (b a : α) :
    refs (Function.update f i (some b)) a = refs f a + if a = b then 1 else 0 := by
  unfold refs
  by_cases hab : a = b
  · -- the positions of `a` are the old ones and `i`
    have hset : {j | Function.update f i (some b) j = some a} = insert i {j | f j = some a} := by
      ext j
      by_cases hji : j = i
      · subst hji
        simp [hab]
      · simp [hji]
    have hnot : i ∉ {j | f j = some a} := by
      intro h
      rw [show f i = some a from h] at hi
      exact absurd hi (Option.some_ne_none a)
    rw [hset, Set.ncard_insert_of_notMem hnot (hf.positions a), if_pos hab]
  · have hset : {j | Function.update f i (some b) j = some a} = {j | f j = some a} := by
      ext j
      by_cases hji : j = i
      · subst hji
        simp [hi, Ne.symm hab]
      · simp [Function.update_of_ne hji]
    rw [hset, if_neg hab]
    omega

/-- Writing nothing over nothing. -/
theorem update_none_of_none [DecidableEq ι] {f : ι → Option α} {i : ι} (hi : f i = none) :
    Function.update f i none = f := by
  rw [← hi]
  exact Function.update_eq_self i f

/-- **A position that referred to `b` is cleared.** -/
theorem refs_set_none [DecidableEq ι] [DecidableEq α] {f : ι → Option α} (hf : Finite f) {i : ι}
    {b : α} (hi : f i = some b) (a : α) :
    refs f a = refs (Function.update f i none) a + if a = b then 1 else 0 := by
  have hback : Function.update (Function.update f i none) i (some b) = f := by
    rw [Function.update_idem, ← hi, Function.update_eq_self]
  have hcount := refs_set_some (hf.update i none) (Function.update_self i none f) b a
  rw [hback] at hcount
  exact hcount

/-- What one position adds to the count of `a`. -/
def tally [DecidableEq α] (o : Option α) (a : α) : Int := if o = some a then 1 else 0

@[simp] theorem tally_none [DecidableEq α] : tally (none : Option α) = 0 := rfl

theorem tally_self [DecidableEq α] (a : α) : tally (some a) a = 1 := if_pos rfl

theorem tally_of_ne [DecidableEq α] {a b : α} (h : a ≠ b) : tally (some b) a = 0 := by
  unfold tally
  rw [if_neg]
  intro hab
  exact h (Option.some.inj hab).symm

theorem tally_nonneg [DecidableEq α] (o : Option α) (a : α) : 0 ≤ tally o a := by
  unfold tally
  split <;> omega

/-- **One position changes**: it gives up what it counted for and counts for
its new value. -/
theorem refs_update [DecidableEq ι] [DecidableEq α] {f : ι → Option α} (hf : Finite f) (i : ι)
    (v : Option α) (a : α) :
    (refs (Function.update f i v) a : Int) = refs f a - tally (f i) a + tally v a := by
  -- first clear the position
  have hclear : (refs f a : Int) = refs (Function.update f i none) a + tally (f i) a := by
    cases hfi : f i with
    | none =>
        rw [update_none_of_none hfi]
        simp
    | some b =>
        have hcount := refs_set_none hf hfi a
        by_cases hab : a = b
        · subst hab
          rw [if_pos rfl] at hcount
          rw [tally_self]
          omega
        · rw [if_neg hab] at hcount
          rw [tally_of_ne hab]
          omega
  -- then fill it
  cases v with
  | none =>
      rw [tally_none]
      show (refs (Function.update f i none) a : Int) = refs f a - tally (f i) a + 0
      omega
  | some b =>
      have hcount := refs_set_some (hf.update i none) (Function.update_self i none f) b a
      rw [Function.update_idem] at hcount
      by_cases hab : a = b
      · subst hab
        rw [if_pos rfl] at hcount
        rw [tally_self]
        omega
      · rw [if_neg hab] at hcount
        rw [tally_of_ne hab]
        omega

/-- A position that refers to `a` is counted. -/
theorem refs_pos {f : ι → Option α} (hf : Finite f) {i : ι} {a : α} (hi : f i = some a) :
    0 < refs f a := by
  unfold refs
  rw [Set.ncard_pos (hf.positions a)]
  exact ⟨i, hi⟩

theorem refs_eq_zero {f : ι → Option α} {a : α} (h : ∀ i, f i ≠ some a) : refs f a = 0 := by
  unfold refs
  have hset : {i | f i = some a} = ∅ := by
    ext i
    simp [h i]
  rw [hset, Set.ncard_empty]

theorem ne_of_refs_eq_zero {f : ι → Option α} (hf : Finite f) {a : α} (h : refs f a = 0) (i : ι) :
    f i ≠ some a := by
  intro hi
  have := refs_pos hf hi
  omega

/-- Two positions of an object that is referred to once are the same. -/
theorem unique_of_refs_le_one {f : ι → Option α} (hf : Finite f) {a : α} (h : refs f a ≤ 1)
    {i j : ι} (hi : f i = some a) (hj : f j = some a) : i = j :=
  (Set.ncard_le_one (hf.positions a)).mp h i hi j hj

/-- Another position of an object that is referred to more than once. -/
theorem exists_other_of_one_lt_refs {f : ι → Option α} {a : α} (h : 1 < refs f a) (i : ι) :
    ∃ j, j ≠ i ∧ f j = some a := by
  obtain ⟨j, hj, hne⟩ := Set.exists_ne_of_one_lt_ncard h i
  exact ⟨j, hne, hj⟩

/-- Positions of a finite type, one of which refers to nothing. -/
theorem refs_lt_card [Fintype ι] {f : ι → Option α} {i : ι} (hi : f i = none) (a : α) :
    refs f a < Fintype.card ι := by
  unfold refs
  rw [← Nat.card_eq_fintype_card]
  apply Set.ncard_lt_card
  intro huniv
  have hin : i ∈ {i | f i = some a} := by
    rw [huniv]
    exact Set.mem_univ i
  rw [show f i = some a from hin] at hi
  exact absurd hi (Option.some_ne_none a)

theorem finite_of_fintype [Fintype ι] (f : ι → Option α) : Finite f := Set.toFinite _

end MierOS.Lib.Refs
