/-
  MierOS.Lib.Buckets
  **LISTS OF BUCKETS up to permutation.**

  A bucketed container holds the elements of all its buckets; replacing one
  bucket changes that collection by exactly the difference of the two buckets.
  Everything is stated on `List.flatten`, up to `List.Perm`.

  Main results: `flatten_set_perm`, `flatten_append_perm`,
  `flatten_remove_perm`, `distribute`.
-/
import Mathlib.Data.List.Perm.Basic
import Mathlib.Data.List.Flatten

namespace MierOS.Lib.Buckets

variable {α : Type*}

/-! ## §1. Replacing one bucket. -/

/-- **The exchange law**: the new collection with the old bucket is the old
collection with the new bucket. -/
theorem flatten_set_perm :
    ∀ (l : List (List α)) (i : Nat) (c : List α), i < l.length →
      ((l.set i c).flatten ++ l.getD i []).Perm (l.flatten ++ c) := by
  intro l
  induction l with
  | nil => intro i c hi; simp at hi
  | cons b l ih =>
      intro i c hi
      cases i with
      | zero =>
          simp only [List.set_cons_zero, List.flatten_cons, List.getD_cons_zero]
          calc (c ++ l.flatten ++ b).Perm (b ++ (c ++ l.flatten)) := List.perm_append_comm
            _ = b ++ c ++ l.flatten := by rw [List.append_assoc]
            _ |>.Perm (b ++ (l.flatten ++ c)) := by
                rw [List.append_assoc]
                exact List.perm_append_comm.append_left b
            _ = b ++ l.flatten ++ c := by rw [List.append_assoc]
      | succ i =>
          simp only [List.set_cons_succ, List.flatten_cons, List.getD_cons_succ,
            List.append_assoc]
          exact (ih i c (by simpa using hi)).append_left b

/-- Appending to one bucket appends to the collection. -/
theorem flatten_append_perm (l : List (List α)) (i : Nat) (c : List α) (hi : i < l.length) :
    (l.set i (l.getD i [] ++ c)).flatten.Perm (l.flatten ++ c) := by
  have hex := flatten_set_perm l i (l.getD i [] ++ c) hi
  have hswap : (l.flatten ++ (l.getD i [] ++ c)).Perm (l.flatten ++ c ++ l.getD i []) := by
    rw [List.append_assoc]
    exact List.perm_append_comm.append_left _
  exact (List.perm_append_right_iff _).mp (hex.trans hswap)

/-- Taking `a` out of one bucket takes it out of the collection. -/
theorem flatten_remove_perm (l : List (List α)) (i : Nat) (a : α) (c : List α)
    (hi : i < l.length) (ha : (l.getD i []).Perm (a :: c)) :
    l.flatten.Perm (a :: (l.set i c).flatten) := by
  have hex := flatten_set_perm l i c hi
  have hsplit : ((l.set i c).flatten ++ l.getD i []).Perm
      (a :: (l.set i c).flatten ++ c) :=
    (ha.append_left _).trans List.perm_middle
  exact (List.perm_append_right_iff c).mp (hex.symm.trans hsplit)

theorem getD_set_self (l : List (List α)) (i : Nat) (c : List α) (hi : i < l.length) :
    (l.set i c).getD i [] = c := by
  simp [List.getD_eq_getElem?_getD, List.getElem?_set_self hi]

theorem getD_set_ne (l : List (List α)) {i j : Nat} (c : List α) (hij : i ≠ j) :
    (l.set i c).getD j [] = l.getD j [] := by
  simp [List.getD_eq_getElem?_getD, List.getElem?_set_ne hij]

/-- An element of the collection sits in one of the buckets. -/
theorem mem_flatten_iff (l : List (List α)) (a : α) :
    a ∈ l.flatten ↔ ∃ i, i < l.length ∧ a ∈ l.getD i [] := by
  rw [List.mem_flatten]
  constructor
  · intro ⟨b, hb, ha⟩
    obtain ⟨i, hi, rfl⟩ := List.getElem_of_mem hb
    exact ⟨i, hi, by rw [List.getD_eq_getElem?_getD, List.getElem?_eq_getElem hi]; exact ha⟩
  · intro ⟨i, hi, ha⟩
    rw [List.getD_eq_getElem?_getD, List.getElem?_eq_getElem hi] at ha
    exact ⟨l[i], List.getElem_mem hi, ha⟩

/-! ## §2. Filing a list of elements. -/

/-- File the elements one after the other, each at the end of the bucket
`place` names. -/
def distribute (place : α → Nat) (l : List (List α)) (elems : List α) : List (List α) :=
  elems.foldl (fun l a => l.set (place a) (l.getD (place a) [] ++ [a])) l

theorem distribute_length (place : α → Nat) :
    ∀ (elems : List α) (l : List (List α)), (distribute place l elems).length = l.length := by
  intro elems
  induction elems with
  | nil => intro l; rfl
  | cons a elems ih =>
      intro l
      show (distribute place (l.set (place a) _) elems).length = _
      rw [ih, List.length_set]

/-- Filing loses and duplicates nothing. -/
theorem distribute_flatten_perm (place : α → Nat) :
    ∀ (elems : List α) (l : List (List α)), (∀ a ∈ elems, place a < l.length) →
      (distribute place l elems).flatten.Perm (l.flatten ++ elems) := by
  intro elems
  induction elems with
  | nil => intro l _; simp [distribute]
  | cons a elems ih =>
      intro l hplace
      have ha : place a < l.length := hplace a List.mem_cons_self
      have hrest := ih (l.set (place a) (l.getD (place a) [] ++ [a])) (fun b hb => by
        rw [List.length_set]; exact hplace b (List.mem_cons_of_mem _ hb))
      refine hrest.trans ?_
      calc ((l.set (place a) (l.getD (place a) [] ++ [a])).flatten ++ elems).Perm
            (l.flatten ++ [a] ++ elems) := (flatten_append_perm l _ [a] ha).append_right _
        _ = l.flatten ++ a :: elems := by simp

/-- Filing keeps every element in the bucket it belongs to. -/
theorem distribute_placed (place : α → Nat) :
    ∀ (elems : List α) (l : List (List α)),
      (∀ i, ∀ a ∈ l.getD i [], place a = i) →
      ∀ i, ∀ a ∈ (distribute place l elems).getD i [], place a = i := by
  intro elems
  induction elems with
  | nil => intro l hl; exact hl
  | cons b elems ih =>
      intro l hl
      refine ih (l.set (place b) (l.getD (place b) [] ++ [b])) fun i a ha => ?_
      by_cases hi : place b = i
      · subst hi
        by_cases hlt : place b < l.length
        · rw [getD_set_self _ _ _ hlt, List.mem_append, List.mem_singleton] at ha
          rcases ha with ha | rfl
          · exact hl _ a ha
          · rfl
        · rw [List.set_eq_of_length_le (by omega)] at ha
          exact hl _ a ha
      · rw [getD_set_ne _ _ hi] at ha
        exact hl i a ha

end MierOS.Lib.Buckets
