/-
  MierOS.Lib.TwoWay
  **DOUBLY LINKED LISTS BETWEEN TWO SENTINELS.**

  `TwoWay next prev head tail l`: following `next` from `head` visits the nodes
  of `l` and arrives at `tail`, and following `prev` from `tail` visits the same
  nodes in reverse order and arrives at `head`.

  Each direction is a segment of `Lib.Links` that starts at its own sentinel, so
  a write to the forward links and the matching write to the backward links are
  one lemma read in two directions:

  Main results: `TwoWay.insert`, `TwoWay.unlink`, `TwoWay.next_eq`,
  `TwoWay.prev_eq`.

  A position is a split of the list: behind `a` and before `b` stands
  `b.headD tail`, and what it points back to is `a.getLastD head`.
-/
import MierOS.Lib.Links

namespace MierOS.Lib.Links

/-- A pointer to a node: the two sentinels are members of the list object, the other
nodes are allocated. -/
inductive NodePtr where
  | null
  | head
  | tail
  | entry (address : Nat)
  deriving Repr, DecidableEq

variable {P : Type*} {next prev next' prev' : P → P} {head tail p q e x : P} {a b l l' : List P}

/-! ## §1. One direction, from its sentinel. -/

/-- The sentinel and the first part of the list end in the last node of that part. -/
theorem cons_eq_concat (p : P) (l : List P) : ∃ xs, p :: l = xs ++ [l.getLastD p] := by
  rcases List.eq_nil_or_concat l with rfl | ⟨xs, y, rfl⟩
  · exact ⟨[], rfl⟩
  · exact ⟨p :: xs, by simp⟩

/-- Behind the last node of the first part stands the first node of the second. -/
theorem Seg.next_getLastD (h : Seg next p (p :: (l ++ l')) q) :
    next (l.getLastD p) = l'.headD q := by
  obtain ⟨xs, hxs⟩ := cons_eq_concat p l
  rw [← List.cons_append, hxs, List.append_assoc] at h
  obtain ⟨m, _, hm⟩ := h.split
  have hrest : Seg next (next (l.getLastD p)) l' q := hm.2
  cases l' with
  | nil => exact hrest
  | cons y l' => exact hrest.start

section Writes

variable [DecidableEq P]

theorem Seg.insertAt (h : Seg next p (p :: (l ++ l')) q) (hnodup : (p :: (l ++ l')).Nodup)
    (he : e ∉ p :: (l ++ l')) :
    Seg (Function.update (Function.update next e (l'.headD q)) (l.getLastD p) e) p
      (p :: (l ++ e :: l')) q := by
  have hnext := h.next_getLastD
  obtain ⟨xs, hxs⟩ := cons_eq_concat p l
  rw [← List.cons_append, hxs, List.append_assoc] at h hnodup he ⊢
  rw [← hnext]
  exact h.insert hnodup he

theorem Seg.unlinkAt (h : Seg next p (p :: (l ++ x :: l')) q)
    (hnodup : (p :: (l ++ x :: l')).Nodup) :
    Seg (Function.update next (l.getLastD p) (next x)) p (p :: (l ++ l')) q := by
  obtain ⟨xs, hxs⟩ := cons_eq_concat p l
  rw [← List.cons_append, hxs, List.append_assoc] at h hnodup ⊢
  exact h.unlink hnodup

end Writes

/-! ## §2. Both directions. -/

/-- The nodes of `l` are linked between the sentinels, in both directions. -/
structure TwoWay (next prev : P → P) (head tail : P) (l : List P) : Prop where
  forward : Seg next head (head :: l) tail
  backward : Seg prev tail (tail :: l.reverse) head
  nodup : (head :: tail :: l).Nodup

namespace TwoWay

/-- Nothing between the sentinels. -/
theorem nil (hne : head ≠ tail) (hnext : next head = tail) (hprev : prev tail = head) :
    TwoWay next prev head tail [] := by
  refine ⟨⟨rfl, hnext⟩, ⟨rfl, hprev⟩, ?_⟩
  simp [hne]

theorem head_ne_tail (h : TwoWay next prev head tail l) : head ≠ tail := by
  have hnodup := h.nodup
  rw [List.nodup_cons] at hnodup
  exact fun heq => hnodup.1 (heq ▸ List.mem_cons_self)

theorem head_notMem (h : TwoWay next prev head tail l) : head ∉ l := fun hmem =>
  (List.nodup_cons.mp h.nodup).1 (List.mem_cons_of_mem _ hmem)

theorem tail_notMem (h : TwoWay next prev head tail l) : tail ∉ l :=
  (List.nodup_cons.mp (List.nodup_cons.mp h.nodup).2).1

theorem nodup_list (h : TwoWay next prev head tail l) : l.Nodup :=
  (List.nodup_cons.mp (List.nodup_cons.mp h.nodup).2).2

theorem forward_nodup (h : TwoWay next prev head tail l) : (head :: l).Nodup :=
  List.nodup_cons.mpr ⟨h.head_notMem, h.nodup_list⟩

theorem backward_nodup (h : TwoWay next prev head tail l) : (tail :: l.reverse).Nodup := by
  rw [List.nodup_cons, List.mem_reverse, List.nodup_reverse]
  exact ⟨h.tail_notMem, h.nodup_list⟩

theorem next_eq (h : TwoWay next prev head tail (a ++ b)) :
    next (a.getLastD head) = b.headD tail := h.forward.next_getLastD

theorem prev_eq (h : TwoWay next prev head tail (a ++ b)) :
    prev (b.headD tail) = a.getLastD head := by
  have hback := h.backward
  rw [List.reverse_append] at hback
  have hprev := hback.next_getLastD
  simpa [List.getLastD_eq_getLast?, List.headD_eq_head?_getD] using hprev

/-- What stands behind a node. -/
theorem next_of_mem (h : TwoWay next prev head tail (a ++ x :: b)) : next x = b.headD tail := by
  have hnext := (show a ++ x :: b = (a ++ [x]) ++ b by simp) ▸ h
  simpa using hnext.next_eq

theorem prev_of_mem (h : TwoWay next prev head tail (a ++ x :: b)) :
    prev x = a.getLastD head := h.prev_eq

/-- What stands before a position is not the last sentinel. -/
theorem getLastD_ne_tail (h : TwoWay next prev head tail (a ++ b)) : a.getLastD head ≠ tail := by
  intro heq
  rcases List.eq_nil_or_concat a with rfl | ⟨a', y, rfl⟩
  · exact h.head_ne_tail heq
  · exact h.tail_notMem (by simp [← show y = tail by simpa using heq])

/-- A node does not point back to itself. -/
theorem prev_ne (h : TwoWay next prev head tail (a ++ x :: b)) : prev x ≠ x := by
  rw [h.prev_of_mem]
  intro heq
  rcases List.eq_nil_or_concat a with rfl | ⟨a', y, rfl⟩
  · exact h.head_notMem (by simp [show head = x from heq])
  · have hy : y = x := by simpa using heq
    subst hy
    have hdisjoint := (List.nodup_append.mp h.nodup_list).2.2
    exact hdisjoint y (by simp) y List.mem_cons_self rfl

/-- A position is not a node that is yet to be linked. -/
theorem headD_ne_of_fresh (hnew : x ∉ head :: tail :: (a ++ b)) : b.headD tail ≠ x := by
  intro heq
  cases b with
  | nil => exact hnew (by simp [← show tail = x from heq])
  | cons y b => exact hnew (by simp [← show y = x from heq])

section Writes

variable [DecidableEq P]

/-- **A node is put before the position** between `a` and `b`. -/
theorem insert (h : TwoWay next prev head tail (a ++ b)) (he : e ∉ head :: tail :: (a ++ b)) :
    TwoWay
      (Function.update (Function.update next e (b.headD tail)) (a.getLastD head) e)
      (Function.update (Function.update prev e (a.getLastD head)) (b.headD tail) e)
      head tail (a ++ e :: b) := by
  have hehead : e ∉ head :: (a ++ b) := fun hmem =>
    he (((List.sublist_cons_self tail _).cons_cons head).subset hmem)
  have hetail : e ∉ tail :: (a ++ b).reverse := by
    rw [List.mem_cons, List.mem_reverse, ← List.mem_cons]
    exact fun hmem => he (List.mem_cons_of_mem head hmem)
  refine ⟨h.forward.insertAt h.forward_nodup hehead, ?_, ?_⟩
  · -- the same write, read from the other sentinel
    have hback := h.backward
    have hnodup := h.backward_nodup
    rw [List.reverse_append] at hback hnodup hetail
    have hins := hback.insertAt hnodup hetail
    simpa [List.getLastD_eq_getLast?, List.headD_eq_head?_getD] using hins
  · have hmiddle : ((head :: tail :: a) ++ e :: b).Perm (e :: ((head :: tail :: a) ++ b)) :=
      List.perm_middle
    exact hmiddle.nodup_iff.mpr (List.nodup_cons.mpr ⟨he, h.nodup⟩)

/-- **A node is taken out.** -/
theorem unlink (h : TwoWay next prev head tail (a ++ x :: b)) :
    TwoWay (Function.update next (prev x) (next x)) (Function.update prev (next x) (prev x))
      head tail (a ++ b) := by
  refine ⟨?_, ?_, ?_⟩
  · rw [h.prev_of_mem]
    exact h.forward.unlinkAt h.forward_nodup
  · have hback := h.backward
    have hnodup := h.backward_nodup
    rw [List.reverse_append, List.reverse_cons, List.append_assoc, List.singleton_append]
      at hback hnodup
    have hun := hback.unlinkAt hnodup
    rw [h.next_of_mem]
    simpa [List.getLastD_eq_getLast?, List.headD_eq_head?_getD] using hun
  · have hmiddle : ((head :: tail :: a) ++ x :: b).Perm (x :: ((head :: tail :: a) ++ b)) :=
      List.perm_middle
    exact (List.nodup_cons.mp (hmiddle.nodup_iff.mp h.nodup)).2

end Writes

/-- Links that agree on the nodes and the sentinels link them as well. -/
theorem frame (h : TwoWay next prev head tail l) (hnext : ∀ x ∈ head :: tail :: l, next' x = next x)
    (hprev : ∀ x ∈ head :: tail :: l, prev' x = prev x) : TwoWay next' prev' head tail l := by
  refine ⟨h.forward.frame fun x hx => hnext x ?_, h.backward.frame fun x hx => hprev x ?_, h.nodup⟩
  · rcases List.mem_cons.mp hx with rfl | hx
    · exact List.mem_cons_self
    · exact List.mem_cons_of_mem _ (List.mem_cons_of_mem _ hx)
  · rcases List.mem_cons.mp hx with rfl | hx
    · exact List.mem_cons_of_mem _ List.mem_cons_self
    · exact List.mem_cons_of_mem _ (List.mem_cons_of_mem _ (List.mem_reverse.mp hx))

/-- The links decide which nodes are linked. -/
theorem unique (h : TwoWay next prev head tail l) (h' : TwoWay next prev head tail l') :
    l = l' := by
  have hseg : ∀ (l l' : List P) (p : P), Seg next p l tail → Seg next p l' tail →
      tail ∉ l → tail ∉ l' → l = l' := by
    intro l
    induction l with
    | nil =>
        intro l' p hl hl' _ hnot
        cases l' with
        | nil => rfl
        | cons y l' =>
            have hp : p = tail := hl
            exact absurd (hp ▸ hl'.start ▸ List.mem_cons_self) hnot
    | cons y l ih =>
        intro l' p hl hl' hnot hnot'
        cases l' with
        | nil =>
            have hp : p = tail := hl'
            exact absurd (hp ▸ hl.start ▸ List.mem_cons_self) hnot
        | cons z l' =>
            have hyz : y = z := hl.start.symm.trans hl'.start
            subst hyz
            rw [ih l' (next y) hl.2 hl'.2 (fun hmem => hnot (List.mem_cons_of_mem y hmem))
              (fun hmem => hnot' (List.mem_cons_of_mem y hmem))]
  exact hseg l l' (next head) h.forward.2 h'.forward.2 h.tail_notMem h'.tail_notMem

end TwoWay

end MierOS.Lib.Links
