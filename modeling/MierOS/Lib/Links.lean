/-
  MierOS.Lib.Links
  **SEGMENTS OF AN INTRUSIVE SINGLY LINKED LIST.**

  The links are a function `next` on pointers.  `Seg next p l q` says that
  following them from `p` visits the nodes of `l` and arrives at `q`.

  Main results: `Seg.update`, `Seg.updateLast`, `Seg.unlink`, `Seg.insert`,
  `Seg.walk_eq`.
-/
import Mathlib.Data.List.Nodup
import Mathlib.Logic.Function.Basic

namespace MierOS.Lib.Links

variable {P : Type*}

/-! ## §1. Segments. -/

/-- From `p` the links visit the nodes of `l`, in order, and then `q`. -/
def Seg (next : P → P) : P → List P → P → Prop
  | p, [], q => p = q
  | p, x :: l, q => p = x ∧ Seg next (next x) l q

namespace Seg

variable {next next' : P → P} {p q m : P} {l l' : List P}

theorem append (hl : Seg next p l m) (hl' : Seg next m l' q) : Seg next p (l ++ l') q := by
  induction l generalizing p with
  | nil =>
      have hpm : p = m := hl
      rw [hpm]
      exact hl'
  | cons x l ih => exact ⟨hl.1, ih hl.2⟩

theorem split (h : Seg next p (l ++ l') q) : ∃ m, Seg next p l m ∧ Seg next m l' q := by
  induction l generalizing p with
  | nil => exact ⟨p, rfl, h⟩
  | cons x l ih =>
      obtain ⟨m, hl, hl'⟩ := ih h.2
      exact ⟨m, ⟨h.1, hl⟩, hl'⟩

/-- Only the links of the visited nodes matter. -/
theorem frame (h : Seg next p l q) (hsame : ∀ x ∈ l, next' x = next x) : Seg next' p l q := by
  induction l generalizing p with
  | nil => exact h
  | cons x l ih =>
      refine ⟨h.1, ?_⟩
      rw [hsame x List.mem_cons_self]
      exact ih h.2 (fun y hy => hsame y (List.mem_cons_of_mem x hy))

/-- The start of a segment is its first node. -/
theorem start {x : P} (h : Seg next p (x :: l) q) : p = x := h.1

/-- The link of the last node is where the segment ends. -/
theorem next_last {a : P} (h : Seg next p (l ++ [a]) q) : next a = q := by
  obtain ⟨m, _, hm⟩ := split h
  exact hm.2

section Update

variable [DecidableEq P]

/-- **Frame**: the link of a node that is not visited. -/
theorem update {a v : P} (h : Seg next p l q) (ha : a ∉ l) :
    Seg (Function.update next a v) p l q := by
  apply h.frame
  intro x hx
  have hxa : x ≠ a := fun heq => ha (by rw [← heq]; exact hx)
  exact Function.update_of_ne hxa v next

/-- **Redirecting the last node's link** moves the end of the segment. -/
theorem updateLast {a v : P} (h : Seg next p (l ++ [a]) q) (ha : a ∉ l) :
    Seg (Function.update next a v) p (l ++ [a]) v := by
  obtain ⟨m, hl, hm⟩ := split h
  refine (hl.update ha).append ⟨hm.1, ?_⟩
  show Function.update next a v a = v
  exact Function.update_self a v next

/-- **Unlinking** the node `t` behind `a`: `a` inherits its link. -/
theorem unlink {a t : P} (h : Seg next p (l ++ a :: t :: l') q)
    (hnodup : (l ++ a :: t :: l').Nodup) :
    Seg (Function.update next a (next t)) p (l ++ a :: l') q := by
  obtain ⟨m, hl, hm⟩ := split h
  have hsplit := List.nodup_append.mp hnodup
  have hal : a ∉ l := fun hmem => hsplit.2.2 a hmem a List.mem_cons_self rfl
  have hal' : a ∉ l' := fun hmem =>
    (List.nodup_cons.mp hsplit.2.1).1 (List.mem_cons_of_mem t hmem)
  have hlast : Seg (Function.update next a (next t)) p (l ++ [a]) (next t) := by
    apply updateLast _ hal
    · exact t
    · exact hl.append ⟨hm.1, hm.2.1⟩
  have hrest : Seg (Function.update next a (next t)) (next t) l' q := hm.2.2.update hal'
  have happ := hlast.append hrest
  rw [List.append_assoc] at happ
  exact happ

/-- **Linking in** a node `e` behind `a`. -/
theorem insert {a e : P} (h : Seg next p (l ++ a :: l') q) (hnodup : (l ++ a :: l').Nodup)
    (he : e ∉ l ++ a :: l') :
    Seg (Function.update (Function.update next e (next a)) a e) p (l ++ a :: e :: l') q := by
  obtain ⟨m, hl, hm⟩ := split h
  have hsplit := List.nodup_append.mp hnodup
  have hal : a ∉ l := fun hmem => hsplit.2.2 a hmem a List.mem_cons_self rfl
  have hal' : a ∉ l' := (List.nodup_cons.mp hsplit.2.1).1
  have hel : e ∉ l := fun hmem => he (List.mem_append_left _ hmem)
  have hel' : e ∉ l' := fun hmem => he (List.mem_append_right _ (List.mem_cons_of_mem a hmem))
  have hea : e ≠ a := fun heq => he (heq ▸ List.mem_append_right _ List.mem_cons_self)
  -- the nodes on either side keep their links
  have hrest : Seg (Function.update (Function.update next e (next a)) a e) (next a) l' q :=
    (hm.2.update hel').update hal'
  refine ((hl.update hel).update hal).append ⟨hm.1, ?_, ?_⟩
  · show Function.update (Function.update next e (next a)) a e a = e
    rw [Function.update_self]
  · rw [Function.update_of_ne hea, Function.update_self]
    exact hrest

end Update

end Seg

/-! ## §2. Positions along a chain. -/

section Walk

variable [DecidableEq P] (next : P → P) (null : P)

/-- The node at position `i` of the chain from `p`, and `null` past its end.
The chain may be cyclic. -/
def walk (p : P) : Nat → P
  | 0 => p
  | i + 1 => if walk p i = null then null else next (walk p i)

theorem walk_null (i : Nat) : walk next null null i = null := by
  induction i with
  | zero => rfl
  | succ i ih =>
      show (if walk next null null i = null then null else _) = null
      rw [if_pos ih]

variable {next null} {p x : P} {l l' : List P}

theorem walk_cons (hp : p ≠ null) (i : Nat) :
    walk next null p (i + 1) = walk next null (next p) i := by
  induction i with
  | zero =>
      show (if p = null then null else next p) = next p
      rw [if_neg hp]
  | succ i ih =>
      show (if walk next null p (i + 1) = null then null else next (walk next null p (i + 1))) = _
      rw [ih]
      rfl

/-- A segment puts its nodes at the first positions. -/
theorem Seg.walk_seg {q : P} (h : Seg next p (l ++ x :: l') q) (hnull : null ∉ l) :
    walk next null p l.length = x := by
  induction l generalizing p with
  | nil => exact h.start
  | cons y l ih =>
      have hy : p = y := h.start
      have hne : p ≠ null := fun heq => hnull (by rw [← heq, hy]; exact List.mem_cons_self)
      rw [List.length_cons, walk_cons hne, hy]
      exact ih h.2 (fun hmem => hnull (List.mem_cons_of_mem y hmem))

/-- **The node at position `i`** of a chain that ends in null. -/
theorem Seg.walk_eq (h : Seg next p l null) (hnull : null ∉ l) (i : Nat) :
    walk next null p i = l.getD i null := by
  induction l generalizing p i with
  | nil =>
      have hp : p = null := h
      rw [hp, walk_null]
      rfl
  | cons x l ih =>
      have hp : p = x := h.start
      have hne : p ≠ null := fun heq => hnull (by rw [← heq, hp]; exact List.mem_cons_self)
      cases i with
      | zero => exact hp
      | succ i =>
          rw [walk_cons hne, hp, List.getD_cons_succ]
          exact ih h.2 (fun hmem => hnull (List.mem_cons_of_mem x hmem)) i

/-- **Membership**: the nodes met along the chain are those of the list. -/
theorem Seg.reached_iff (h : Seg next p l null) (hnull : null ∉ l) :
    (x ≠ null ∧ ∃ i, walk next null p i = x) ↔ x ∈ l := by
  constructor
  · intro ⟨hx, i, hi⟩
    rw [h.walk_eq hnull, List.getD_eq_getElem?_getD] at hi
    cases hget : l[i]? with
    | none =>
        rw [hget] at hi
        exact absurd hi.symm hx
    | some y =>
        rw [hget] at hi
        have hyx : y = x := hi
        rw [← hyx]
        exact List.mem_of_getElem? hget
  · intro hmem
    obtain ⟨i, hi⟩ := List.mem_iff_getElem?.mp hmem
    refine ⟨fun heq => hnull (heq ▸ hmem), i, ?_⟩
    rw [h.walk_eq hnull, List.getD_eq_getElem?_getD, hi]
    rfl

/-- **No node twice**: two positions of the chain hold different nodes. -/
theorem Seg.walk_injective (h : Seg next p l null) (hnull : null ∉ l) (hnodup : l.Nodup)
    {i j : Nat} (hij : i ≠ j) (hi : walk next null p i ≠ null) :
    walk next null p i ≠ walk next null p j := by
  rw [h.walk_eq hnull, List.getD_eq_getElem?_getD] at hi ⊢
  rw [h.walk_eq hnull, List.getD_eq_getElem?_getD]
  cases hget : l[i]? with
  | none =>
      rw [hget] at hi
      exact absurd rfl hi
  | some x =>
      have hx : x ∈ l := List.mem_of_getElem? hget
      obtain ⟨hlt, _⟩ := List.getElem?_eq_some_iff.mp hget
      cases hget' : l[j]? with
      | none =>
          intro heq
          have heq' : x = null := heq
          exact hnull (heq' ▸ hx)
      | some y =>
          intro heq
          have heq' : x = y := heq
          apply hij
          apply (List.getElem?_inj hlt hnodup).mp
          rw [hget, hget', heq']

end Walk

end MierOS.Lib.Links
