/-
  MierOS.Lib.StableSort
  **STABLE SORTS** by a strict weak order of keys.

  Elements whose keys are not ordered either way are tied.  A stable sort orders the
  keys and keeps the elements tied to any given key as they came; this determines it.

  Main results: `StableSort`, `StableSort.unique`, `StableSort.foldl`.
-/
import Mathlib.Data.List.Sort

namespace MierOS.Lib

variable {α β : Type*} {lt : β → β → Prop}

/-! ## §1. Keys in a strict weak order. -/

/-- Neither key is smaller. -/
def Tied (lt : β → β → Prop) (v w : β) : Prop := ¬ lt v w ∧ ¬ lt w v

instance [DecidableRel lt] (v w : β) : Decidable (Tied lt v w) :=
  inferInstanceAs (Decidable (_ ∧ _))

theorem Tied.symm {v w : β} (h : Tied lt v w) : Tied lt w v := And.symm h

section StrictWeak

variable [IsStrictWeakOrder β lt] {u v w : β}

theorem Tied.trans (h : Tied lt u v) (h' : Tied lt v w) : Tied lt u w :=
  IsStrictWeakOrder.incomp_trans u v w h h'

theorem asymm_of_strictWeak (h : lt v w) : ¬ lt w v := fun h' =>
  irrefl (r := lt) v (IsTrans.trans v w v h h')

theorem tied_self (v : β) : Tied lt v v := ⟨irrefl (r := lt) v, irrefl (r := lt) v⟩

/-- Smaller than a key, smaller than all that come behind it. -/
theorem lt_of_lt_of_not_lt (h : lt u v) (h' : ¬ lt w v) : lt u w := by
  by_cases hvw : lt v w
  · exact IsTrans.trans u v w h hvw
  · -- `v` and `w` are tied: then `u` is not tied to `w`, and not behind it
    have hties : Tied lt v w := ⟨hvw, h'⟩
    refine Classical.byContradiction fun huw => ?_
    by_cases hwu : lt w u
    · exact h' (IsTrans.trans w u v hwu h)
    · exact (Tied.trans ⟨huw, hwu⟩ hties.symm).1 h

/-! ## §2. Lists in the order of their keys. -/

variable {key : α → β} {l l' l'' : List α} {x y : α}

/-- The first elements of two orders of the same elements are tied. -/
theorem tied_of_perm_cons (hperm : (x :: l).Perm (y :: l'))
    (hx : ∀ z ∈ l, ¬ lt (key z) (key x)) (hy : ∀ z ∈ l', ¬ lt (key z) (key y)) :
    Tied lt (key x) (key y) := by
  constructor
  · have hmem : x ∈ y :: l' := hperm.mem_iff.mp List.mem_cons_self
    rcases List.mem_cons.mp hmem with rfl | hmem
    · exact (tied_self (key x)).1
    · exact hy x hmem
  · have hmem : y ∈ x :: l := hperm.mem_iff.mpr List.mem_cons_self
    rcases List.mem_cons.mp hmem with rfl | hmem
    · exact (tied_self (key y)).1
    · exact hx y hmem

variable {r : α → α → Prop} [DecidableRel r]

/-- Where an element goes: behind those it is not smaller than, before those it is. -/
theorem orderedInsert_split (hr : ∀ x y, r x y ↔ lt (key x) (key y))
    (hordered : l.Pairwise fun x y => ¬ lt (key y) (key x)) (x : α) :
    ∃ a b, l = a ++ b ∧ l.orderedInsert r x = a ++ x :: b
      ∧ (∀ y ∈ a, ¬ lt (key x) (key y)) ∧ ∀ y ∈ b, lt (key x) (key y) := by
  induction l with
  | nil => exact ⟨[], [], rfl, rfl, by simp, by simp⟩
  | cons y l ih =>
      obtain ⟨hy, hrest⟩ := List.pairwise_cons.mp hordered
      by_cases hxy : r x y
      · have hlt := (hr x y).mp hxy
        refine ⟨[], y :: l, rfl, List.orderedInsert_cons_of_le _ _ hxy, by simp, fun z hz => ?_⟩
        rcases List.mem_cons.mp hz with rfl | hz
        · exact hlt
        · exact lt_of_lt_of_not_lt hlt (hy z hz)
      · obtain ⟨a, b, rfl, hins, ha, hb⟩ := ih hrest
        refine ⟨y :: a, b, rfl, ?_, fun z hz => ?_, hb⟩
        · rw [List.orderedInsert_of_not_le _ _ hxy, hins, List.cons_append]
        · rcases List.mem_cons.mp hz with rfl | hz
          · exact fun hlt => hxy ((hr x z).mpr hlt)
          · exact ha z hz

end StrictWeak

/-! ## §3. The specification. -/

variable [DecidableRel lt]

/-- **`l'` is `l` sorted by the keys, ties in their original order.** -/
structure StableSort (lt : β → β → Prop) [DecidableRel lt] (key : α → β) (l l' : List α) :
    Prop where
  perm : l'.Perm l
  ordered : l'.Pairwise fun x y => ¬ lt (key y) (key x)
  ties : ∀ v, l'.filter (fun y => Tied lt v (key y)) = l.filter fun y => Tied lt v (key y)

variable {key : α → β} {l l' l'' : List α}

theorem stableSort_nil : StableSort lt key [] [] :=
  ⟨List.Perm.refl [], List.Pairwise.nil, fun _ => rfl⟩

/-- The keys of a stable sort are a stable sort of the keys. -/
theorem StableSort.map (h : StableSort lt key l l') :
    StableSort lt id (l.map key) (l'.map key) where
  perm := h.perm.map key
  ordered := List.pairwise_map.mpr h.ordered
  ties v := by
    simp only [List.filter_map]
    exact congrArg (List.map key) (h.ties v)

section StrictWeak

variable [IsStrictWeakOrder β lt]

/-- **A list has at most one stable sort.** -/
theorem StableSort.unique (h : StableSort lt key l l') (h' : StableSort lt key l l'') :
    l' = l'' := by
  have hperm : l'.Perm l'' := h.perm.trans h'.perm.symm
  have hties : ∀ v, l'.filter (fun y => Tied lt v (key y))
      = l''.filter fun y => Tied lt v (key y) := fun v => (h.ties v).trans (h'.ties v).symm
  have hordered := h.ordered
  have hordered' := h'.ordered
  clear h h'
  induction l' generalizing l'' with
  | nil => exact hperm.nil_eq
  | cons x l' ih =>
      cases l'' with
      | nil => exact absurd hperm.symm.nil_eq (List.cons_ne_nil x l').symm
      | cons y l'' =>
          obtain ⟨hx, hrest⟩ := List.pairwise_cons.mp hordered
          obtain ⟨hy, hrest'⟩ := List.pairwise_cons.mp hordered'
          -- both come first among the elements tied to `x`
          have htied := tied_of_perm_cons hperm hx hy
          have hfirst := hties (key x)
          rw [List.filter_cons_of_pos (by simpa using tied_self (key x)),
            List.filter_cons_of_pos (by simpa using htied)] at hfirst
          obtain rfl : x = y := (List.cons.inj hfirst).1
          have htails := ih hperm.cons_inv (fun v => ?_) hrest hrest'
          · rw [htails]
          · have hv := hties v
            rw [List.filter_cons, List.filter_cons] at hv
            split at hv
            · exact (List.cons.inj hv).2
            · exact hv

/-! ## §4. Sorting by insertion. -/

variable {r : α → α → Prop} [DecidableRel r]

/-- **One insertion**: the element counts as the last of those it is tied to. -/
theorem StableSort.orderedInsert (h : StableSort lt key l l')
    (hr : ∀ x y, r x y ↔ lt (key x) (key y)) (x : α) :
    StableSort lt key (l ++ [x]) (l'.orderedInsert r x) := by
  obtain ⟨a, b, rfl, hins, ha, hb⟩ := orderedInsert_split hr h.ordered x
  obtain ⟨hordered₁, hordered₂, hbetween⟩ := List.pairwise_append.mp h.ordered
  rw [hins]
  refine ⟨?_, ?_, fun v => ?_⟩
  · calc (a ++ x :: b).Perm (x :: (a ++ b)) := List.perm_middle
      _ |>.Perm (x :: l) := h.perm.cons x
      _ |>.Perm (l ++ [x]) := (List.perm_append_comm : ([x] ++ l).Perm (l ++ [x]))
  · refine List.pairwise_append.mpr ⟨hordered₁, List.pairwise_cons.mpr ⟨?_, hordered₂⟩, ?_⟩
    · exact fun y hy => asymm_of_strictWeak (hb y hy)
    · intro y hy z hz
      rcases List.mem_cons.mp hz with rfl | hz
      · exact ha y hy
      · exact hbetween y hy z hz
  · have hold := h.ties v
    simp only [List.filter_append] at hold ⊢
    by_cases hx : Tied lt v (key x)
    · -- what comes behind `x` is not tied to it
      have hnone : b.filter (fun y => Tied lt v (key y)) = [] := by
        refine List.filter_eq_nil_iff.mpr fun y hy htied => ?_
        have hxy : Tied lt (key x) (key y) := hx.symm.trans (by simpa using htied)
        exact hxy.1 (hb y hy)
      rw [hnone, List.append_nil] at hold
      rw [List.filter_cons_of_pos (by simpa using hx), hnone, hold,
        List.filter_cons_of_pos (by simpa using hx), List.filter_nil]
    · rw [List.filter_cons_of_neg (by simpa using hx), hold,
        List.filter_cons_of_neg (by simpa using hx), List.filter_nil, List.append_nil]

/-- **Insertion sort is stable.** -/
theorem StableSort.foldl (h : StableSort lt key l l') (hr : ∀ x y, r x y ↔ lt (key x) (key y))
    (rest : List α) :
    StableSort lt key (l ++ rest) (rest.foldl (fun l x => l.orderedInsert r x) l') := by
  induction rest generalizing l l' with
  | nil =>
      rw [List.append_nil]
      exact h
  | cons x rest ih =>
      have hrest := ih (h.orderedInsert hr x)
      rw [List.append_assoc] at hrest
      exact hrest

end StrictWeak

end MierOS.Lib
