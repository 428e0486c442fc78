/-
  MierOS.Stdlib.List
  **`std::List`** of `kernel/std/include/list.hpp`: entries linked both ways
  between the members `head` and `tail`, and a counter.

  `sort` is an insertion sort on the links: it cuts the chain off behind its
  last entry, empties the list, and puts the entries back one by one, each
  before the first one it is smaller than.  What it takes for the first entry
  of an EMPTY list is `tail`, which it then links to itself.

  Main results: `Linked`, `linked_sort`, `list_representation`,
  `sort_stable`.
-/
import MierOS.Lib.Run
import MierOS.Lib.StableSort
import MierOS.Lib.TwoWay
import Mathlib.Algebra.Group.Nat.Defs
import Mathlib.Data.List.Sort

namespace MierOS.Stdlib

open Lib Lib.Links
open Function (update update_of_ne update_self)

/-! ## §1. The list and its operations. -/

/-- `List<T>`: the links of all entries, their values, and `length`. -/
structure StdList (T : Type) where
  next : NodePtr → NodePtr
  prev : NodePtr → NodePtr
  value : NodePtr → T
  length : UInt64

namespace StdList

variable {T : Type}

/-- `entry->next = p`. -/
def setNext (s : StdList T) (entry p : NodePtr) : StdList T :=
  { s with next := update s.next entry p }

/-- `entry->prev = p`. -/
def setPrev (s : StdList T) (entry p : NodePtr) : StdList T :=
  { s with prev := update s.prev entry p }

/-- `List()`, in a memory that holds `value`. -/
def empty (value : NodePtr → T) : StdList T where
  next := fun p => if p = .head then .tail else .null
  prev := fun p => if p = .tail then .head else .null
  value := value
  length := 0

/-- `size()`, an `unsigned int`. -/
def size (s : StdList T) : UInt32 := s.length.toUInt32

/-- `begin()` and `end()`. -/
def begin (s : StdList T) : NodePtr := s.next .head
def «end» (_ : StdList T) : NodePtr := .tail

/-- `insert(pos, value)`; the allocator answers with the entry at `address`. -/
def insert (s : StdList T) (pos : NodePtr) (value : T) (address : Nat) : NodePtr × StdList T :=
  let en := NodePtr.entry address
  let s := { s with value := update s.value en value }
  let s := s.setNext en pos
  let s := s.setPrev en (s.prev pos)
  let s := s.setNext (s.prev pos) en
  let s := s.setPrev pos en
  (en, { s with length := s.length + 1 })

/-- `erase(pos)`. -/
def erase (s : StdList T) (pos : NodePtr) : NodePtr × StdList T :=
  if pos = .tail then (.tail, s)
  else
    let s := s.setNext (s.prev pos) (s.next pos)
    let s := s.setPrev (s.next pos) (s.prev pos)
    (s.next pos, { s with length := s.length - 1 })

/-- `push_front(value)` and `push_back(value)`. -/
def pushFront (s : StdList T) (value : T) (address : Nat) : StdList T :=
  (s.insert s.begin value address).2
def pushBack (s : StdList T) (value : T) (address : Nat) : StdList T :=
  (s.insert s.end value address).2

/-- `pop_front()` and `pop_back()`; the latter steps back from `end()`. -/
def popFront (s : StdList T) : StdList T := (s.erase s.begin).2
def popBack (s : StdList T) : StdList T := (s.erase (s.prev s.end)).2

/-- The loop of `clear` that frees the entries from `e` on. -/
def clearLoop (s : StdList T) : Nat → NodePtr → Option Unit
  | 0, _ => none
  | fuel + 1, e => if e = .tail then some () else clearLoop s fuel (s.next e)

/-- `clear()`. -/
def clear (s : StdList T) (fuel : Nat) : Option (StdList T) :=
  (s.clearLoop fuel s.begin).map fun _ =>
    let s := { s with length := 0 }
    let s := s.setNext .head .tail
    s.setPrev .tail .head

section Sorting

variable (comparator : T → T → Bool)

/-- The inner loop of `sort`: the first entry from `iter` on that `current` is
smaller than, and `tail` when there is none. -/
def sortSeek (s : StdList T) (current : NodePtr) : Nat → NodePtr → Option NodePtr
  | 0, _ => none
  | fuel + 1, iter =>
      if iter = .tail then some .tail
      else if comparator (s.value current) (s.value iter) then some iter
      else sortSeek s current fuel (s.next iter)

/-- Put `current` before `iter`.  Both branches of `sort` write these links, the
second one at `tail`. -/
def relink (s : StdList T) (current iter : NodePtr) : StdList T :=
  let s := s.setPrev current (s.prev iter)
  let s := s.setNext current iter
  let s := s.setNext (s.prev iter) current
  s.setPrev iter current

/-- The outer loop of `sort`, with `bound` steps for each inner one. -/
def sortLoop (bound : Nat) : Nat → NodePtr → StdList T → Option (StdList T)
  | 0, _, _ => none
  | fuel + 1, current, s =>
      if current = .null then some s
      else
        let next := s.next current
        match s.sortSeek comparator current bound s.begin with
        | none => none
        | some iter => sortLoop bound fuel next (s.relink current iter)

/-- `sort(comparator)`. -/
def sort (s : StdList T) (fuel : Nat) : Option (StdList T) :=
  let current := s.begin
  let s := s.setNext (s.prev .tail) .null
  let s := s.setNext .head .tail
  let s := s.setPrev .tail .head
  sortLoop comparator fuel fuel current s

end Sorting

theorem relink_prev (s : StdList T) (current iter : NodePtr) :
    (s.relink current iter).prev iter = current := by
  show update (update s.prev current (s.prev iter)) iter current iter = current
  rw [update_self]

/-! ## §2. What the writes do. -/

/-- **The shape**: following `next` from `head` visits the entries of `l` and
reaches `tail`, following `prev` from `tail` visits them in reverse order and
reaches `head`; `tail` itself points nowhere. -/
structure Linked (s : StdList T) (l : List NodePtr) : Prop where
  links : TwoWay s.next s.prev .head .tail l
  null_notMem : NodePtr.null ∉ l
  tail_next : s.next .tail = .null

/-- **The representation invariant**: the entries are linked both ways and `size()` is
their number. -/
def Represents (s : StdList T) : Prop :=
  ∃ l, TwoWay s.next s.prev .head .tail l ∧ s.size.toNat = l.length

variable {s : StdList T} {a b l : List NodePtr} {x : NodePtr}

theorem Linked.begin_eq (h : Linked s (a ++ b)) (ha : a = []) : s.begin = b.headD .tail := by
  subst ha
  exact h.links.next_eq

theorem linked_empty (value : NodePtr → T) : Linked (empty value) [] :=
  ⟨TwoWay.nil (by decide) rfl rfl, List.not_mem_nil, rfl⟩

/-- Links that agree on the entries and both members make the same list. -/
theorem Linked.frame {s' : StdList T} (h : Linked s l)
    (hnext : ∀ x ∈ NodePtr.head :: .tail :: l, s'.next x = s.next x)
    (hprev : ∀ x ∈ NodePtr.head :: .tail :: l, s'.prev x = s.prev x) : Linked s' l :=
  ⟨h.links.frame hnext hprev, h.null_notMem, (hnext .tail (by simp)).trans h.tail_next⟩

/-- An entry that is not linked yet differs from both members and from `l`. -/
theorem Linked.fresh (_ : Linked s l) {address : Nat} (hnew : .entry address ∉ l) :
    NodePtr.entry address ∉ NodePtr.head :: .tail :: l := by
  simp [hnew]

/-- **The four writes that link `x` in** before the position of `b`. -/
theorem Linked.link (h : Linked s (a ++ b)) (hnew : x ∉ NodePtr.head :: .tail :: (a ++ b))
    (hnull : x ≠ .null) {s' : StdList T}
    (hnext : s'.next = update (update s.next x (b.headD .tail))
      (a.getLastD .head) x)
    (hprev : s'.prev = update (update s.prev x (a.getLastD .head))
      (b.headD .tail) x) : Linked s' (a ++ x :: b) := by
  refine ⟨?_, ?_, ?_⟩
  · rw [hnext, hprev]
    exact h.links.insert hnew
  · have hn := h.null_notMem
    simp only [List.mem_append, List.mem_cons, not_or] at hn ⊢
    exact ⟨hn.1, hnull.symm, hn.2⟩
  · have hxtail : NodePtr.tail ≠ x := fun heq => hnew (by simp [heq])
    rw [hnext, update_of_ne h.links.getLastD_ne_tail.symm, update_of_ne hxtail]
    exact h.tail_next

/-- **`insert`** puts the new entry before the position. -/
theorem Linked.insert (h : Linked s (a ++ b)) (value : T) {address : Nat}
    (hnew : .entry address ∉ a ++ b) :
    Linked (s.insert (b.headD .tail) value address).2 (a ++ .entry address :: b) := by
  have hfresh := h.fresh hnew
  have hprev := h.links.prev_eq
  have hpos := TwoWay.headD_ne_of_fresh hfresh
  have hkeep : update s.prev (.entry address) (a.getLastD .head) (b.headD .tail)
      = a.getLastD .head := by
    rw [update_of_ne hpos, hprev]
  refine h.link hfresh (by simp) ?_ ?_
  · show update (update s.next _ _)
      (update s.prev _ (s.prev (b.headD .tail)) (b.headD .tail)) _ = _
    rw [hprev, hkeep]
  · show update (update s.prev _ (s.prev (b.headD .tail))) _ _ = _
    rw [hprev]

/-- **`erase`** of an entry takes it out. -/
theorem Linked.erase (h : Linked s (a ++ x :: b)) :
    Linked (s.erase x).2 (a ++ b) ∧ (s.erase x).2.length = s.length - 1 := by
  have htail : x ≠ .tail := fun heq => h.links.tail_notMem (by simp [heq])
  -- the entry's own links are not among those that are written
  have hnext : update s.next (s.prev x) (s.next x) x = s.next x :=
    update_of_ne h.links.prev_ne.symm _ _
  have herase : s.erase x = (s.next x,
      { s with
        next := update s.next (s.prev x) (s.next x)
        prev := update s.prev (s.next x) (s.prev x)
        length := s.length - 1 }) := by
    unfold StdList.erase setNext setPrev
    rw [if_neg htail]
    simp only [hnext]
  rw [herase]
  refine ⟨⟨h.links.unlink, fun hmem => h.null_notMem ?_, ?_⟩, rfl⟩
  · rcases List.mem_append.mp hmem with hmem | hmem
    · exact List.mem_append_left _ hmem
    · exact List.mem_append_right _ (List.mem_cons_of_mem x hmem)
  · have hne := h.links.getLastD_ne_tail
    show update s.next (s.prev x) (s.next x) .tail = .null
    rw [h.links.prev_of_mem, update_of_ne hne.symm]
    exact h.tail_next

theorem clearLoop_some (h : Linked s (a ++ b)) {fuel : Nat} (hfuel : b.length < fuel) :
    s.clearLoop fuel (b.headD .tail) = some () := by
  induction b generalizing a fuel with
  | nil =>
      obtain ⟨fuel, rfl⟩ := Nat.exists_eq_succ_of_ne_zero (Nat.ne_of_gt (Nat.zero_lt_of_lt hfuel))
      rfl
  | cons x b ih =>
      obtain ⟨fuel, rfl⟩ := Nat.exists_eq_succ_of_ne_zero (Nat.ne_of_gt (Nat.zero_lt_of_lt hfuel))
      have htail : x ≠ .tail := fun heq => h.links.tail_notMem (by simp [heq])
      have hrest := ih (a := a ++ [x]) (by simpa using h) (Nat.lt_of_succ_lt_succ hfuel)
      show (if x = .tail then some () else s.clearLoop fuel (s.next x)) = some ()
      rw [if_neg htail, h.links.next_of_mem]
      exact hrest

/-- **`clear`** returns and leaves the empty list. -/
theorem Linked.clear (h : Linked s l) :
    ∃ s', (∀ fuel, l.length < fuel → s.clear fuel = some s') ∧ Linked s' [] ∧ s'.length = 0 := by
  refine ⟨(({ s with length := 0 }.setNext .head .tail).setPrev .tail .head), ?_, ⟨?_, ?_, ?_⟩, rfl⟩
  · intro fuel hfuel
    have hloop := clearLoop_some (a := []) (b := l) h hfuel
    have hbegin := h.begin_eq (a := []) (b := l) rfl
    unfold StdList.clear
    rw [hbegin, hloop]
    rfl
  · exact TwoWay.nil (by decide) (by simp [setNext, setPrev]) (by simp [setNext, setPrev])
  · exact List.not_mem_nil
  · exact h.tail_next

/-! ## §3. `sort`. -/

section Sorting

variable (comparator : T → T → Bool)

/-- `current` is smaller than `x`, as `sort` asks. -/
def Smaller (s : StdList T) (current x : NodePtr) : Prop :=
  comparator (s.value current) (s.value x) = true

instance (s : StdList T) : DecidableRel (s.Smaller comparator) := fun _ _ =>
  inferInstanceAs (Decidable (_ = true))

/-- **The inner loop finds the place of `orderedInsert`.** -/
theorem sortSeek_spec (h : Linked s (a ++ b)) (current : NodePtr) :
    ∃ c d, b = c ++ d ∧ b.orderedInsert (s.Smaller comparator) current = c ++ current :: d
      ∧ ∀ fuel, b.length < fuel →
          s.sortSeek comparator current fuel (b.headD .tail) = some (d.headD .tail) := by
  induction b generalizing a with
  | nil =>
      refine ⟨[], [], rfl, rfl, fun fuel hfuel => ?_⟩
      obtain ⟨fuel, rfl⟩ := Nat.exists_eq_succ_of_ne_zero (Nat.ne_of_gt hfuel)
      rfl
  | cons x b ih =>
      have htail : x ≠ .tail := fun heq => h.links.tail_notMem (by simp [heq])
      -- one step of the loop
      have hstep : ∀ fuel, s.sortSeek comparator current (fuel + 1) x
          = if s.Smaller comparator current x then some x
            else s.sortSeek comparator current fuel (b.headD .tail) := by
        intro fuel
        rw [← h.links.next_of_mem]
        exact if_neg htail
      by_cases hless : s.Smaller comparator current x
      · refine ⟨[], x :: b, rfl, List.orderedInsert_cons_of_le _ _ hless, fun fuel hfuel => ?_⟩
        obtain ⟨fuel, rfl⟩ := Nat.exists_eq_succ_of_ne_zero (show fuel ≠ 0 by omega)
        exact (hstep fuel).trans (if_pos hless)
      · obtain ⟨c, d, hb, hins, hseek⟩ := ih (a := a ++ [x]) (by simpa using h)
        refine ⟨x :: c, d, by rw [hb, List.cons_append], ?_, fun fuel hfuel => ?_⟩
        · rw [List.orderedInsert_of_not_le _ _ hless, hins, List.cons_append]
        · rw [List.length_cons] at hfuel
          obtain ⟨fuel, rfl⟩ := Nat.exists_eq_succ_of_ne_zero (show fuel ≠ 0 by omega)
          exact (hstep fuel).trans ((if_neg hless).trans (hseek fuel (by omega)))

/-- **The links that put an entry back.** -/
theorem Linked.relink (h : Linked s (a ++ b)) (hnew : x ∉ NodePtr.head :: .tail :: (a ++ b))
    (hnull : x ≠ .null) : Linked (s.relink x (b.headD .tail)) (a ++ x :: b) := by
  have hprev := h.links.prev_eq
  have hkeep : update s.prev x (a.getLastD .head) (b.headD .tail) = a.getLastD .head := by
    rw [update_of_ne (TwoWay.headD_ne_of_fresh hnew), hprev]
  refine h.link hnew hnull ?_ ?_
  · show update (update s.next _ _)
      (update s.prev _ (s.prev (b.headD .tail)) (b.headD .tail)) _ = _
    rw [hprev, hkeep]
  · show update (update s.prev _ (s.prev (b.headD .tail))) _ _ = _
    rw [hprev]

/-- The entries still to be put back, from `current` to the null that ends them. -/
structure Detached (s : StdList T) (current : NodePtr) (sorted rest : List NodePtr) : Prop where
  chain : Seg s.next current rest .null
  nodup : rest.Nodup
  entries : ∀ y ∈ rest, y ∉ NodePtr.head :: .tail :: sorted ∧ y ≠ .null

/-- **One round of `sort`**: the first detached entry is linked in. -/
theorem Detached.relink {current : NodePtr} {rest : List NodePtr} (h : Linked s (a ++ b))
    (hd : Detached s current (a ++ b) (x :: rest)) :
    current = x ∧ Linked (s.relink x (b.headD .tail)) (a ++ x :: b)
      ∧ Detached (s.relink x (b.headD .tail)) (s.next x) (a ++ x :: b) rest := by
  obtain ⟨hx, hnull⟩ := hd.entries x List.mem_cons_self
  have hnodup := List.nodup_cons.mp hd.nodup
  refine ⟨hd.chain.start, h.relink hx hnull, ⟨?_, hnodup.2, fun y hy => ?_⟩⟩
  · -- the two forward links that are written belong to `x` and to a linked entry
    refine hd.chain.2.frame fun y hy => ?_
    have hyx : y ≠ x := fun heq => hnodup.1 (heq ▸ hy)
    have hylast : y ≠ a.getLastD .head := by
      intro heq
      have hnot := (hd.entries y (List.mem_cons_of_mem x hy)).1
      rcases List.eq_nil_or_concat a with rfl | ⟨a', z, rfl⟩
      · exact hnot (by simp [heq])
      · exact hnot (by simp [heq])
    show update (update s.next x _)
      (update s.prev x (s.prev (b.headD .tail)) (b.headD .tail)) x y = s.next y
    rw [update_of_ne (TwoWay.headD_ne_of_fresh hx), h.links.prev_eq,
      update_of_ne hylast, update_of_ne hyx]
  · obtain ⟨hnot, hne⟩ := hd.entries y (List.mem_cons_of_mem x hy)
    refine ⟨fun hmem => ?_, hne⟩
    have hyx : y ≠ x := fun heq => hnodup.1 (heq ▸ hy)
    simp only [List.mem_cons, List.mem_append] at hmem hnot
    tauto

/-- **The outer loop returns**, with every detached entry inserted in order. -/
theorem sortLoop_spec (rest : List NodePtr) : ∀ {s : StdList T} {current : NodePtr}
    {sorted : List NodePtr}, Linked s sorted → Detached s current sorted rest →
    ∃ s', (∀ bound fuel, sorted.length + rest.length ≤ bound → rest.length < fuel →
        sortLoop comparator bound fuel current s = some s')
      ∧ Linked s' (rest.foldl (fun l x => l.orderedInsert (s.Smaller comparator) x) sorted)
      ∧ s'.value = s.value ∧ s'.length = s.length := by
  induction rest with
  | nil =>
      intro s current sorted h hd
      refine ⟨s, fun bound fuel _ hfuel => ?_, h, rfl, rfl⟩
      obtain ⟨fuel, rfl⟩ := Nat.exists_eq_succ_of_ne_zero (Nat.ne_of_gt hfuel)
      exact if_pos hd.chain
  | cons x rest ih =>
      intro s current sorted h hd
      obtain ⟨c, d, hsorted, hins, hseek⟩ := sortSeek_spec comparator (a := []) h x
      have hbegin := h.begin_eq (a := []) rfl
      subst hsorted
      obtain ⟨hcur, hlinked, hdetached⟩ := hd.relink h
      obtain ⟨s', hloop, hresult, hvalue, hlength⟩ := ih hlinked hdetached
      refine ⟨s', fun bound fuel hbound hfuel => ?_, ?_, hvalue, hlength⟩
      · simp only [List.length_cons, List.length_append] at hbound hfuel
        obtain ⟨fuel, rfl⟩ := Nat.exists_eq_succ_of_ne_zero (show fuel ≠ 0 by omega)
        have hne : x ≠ .null := (hd.entries x List.mem_cons_self).2
        have hplace := hseek bound (by rw [List.length_append]; omega)
        rw [← hbegin] at hplace
        show (if current = .null then some s else _) = _
        rw [hcur, if_neg hne]
        simp only [hplace]
        exact hloop bound fuel (by simp only [List.length_append, List.length_cons]; omega)
          (by omega)
      · rw [List.foldl_cons, hins]
        exact hresult

/-- The chain that `sort` starts on. -/
theorem Linked.detach (h : Linked s (x :: b)) :
    let s₀ := ((s.setNext (s.prev .tail) .null).setNext .head .tail).setPrev .tail .head
    s.begin = x ∧ Linked s₀ [] ∧ Detached s₀ x [] (x :: b) := by
  intro s₀
  have hbegin : s.begin = x := h.begin_eq (a := []) (b := x :: b) rfl
  obtain ⟨xs, y, hxs⟩ := (List.eq_nil_or_concat (x :: b)).resolve_left (by simp)
  rw [List.concat_eq_append] at hxs
  have hlast : s.prev .tail = y := by
    have hprev := TwoWay.prev_eq (a := x :: b) (b := []) (by simpa using h.links)
    rw [hxs] at hprev
    simpa using hprev
  have hnodup := h.links.nodup_list
  have hhead := h.links.head_notMem
  have htail := h.links.tail_notMem
  have hnull := h.null_notMem
  have hy : y ∈ x :: b := by simp [hxs]
  refine ⟨hbegin, ⟨TwoWay.nil (by decide) ?_ ?_, List.not_mem_nil, ?_⟩, ?_, hnodup, ?_⟩
  · show update (update s.next (s.prev .tail) .null) NodePtr.head .tail .head = _
    rw [update_self]
  · show update s.prev NodePtr.tail NodePtr.head .tail = .head
    rw [update_self]
  · have hytail : NodePtr.tail ≠ y := fun heq => htail (heq ▸ hy)
    show update (update s.next (s.prev .tail) .null) .head .tail .tail = .null
    rw [update_of_ne (by decide), hlast, update_of_ne hytail]
    exact h.tail_next
  · -- cut behind the last entry, then `head` is written
    have hchain : Seg s.next x (x :: b) .tail := by
      have hforward := h.links.forward.2
      rwa [show s.next .head = x from hbegin] at hforward
    have hnotin : y ∉ xs := by
      rw [hxs] at hnodup
      exact fun hmem => (List.nodup_append.mp hnodup).2.2 y hmem y (by simp) rfl
    rw [hxs] at hchain hhead ⊢
    have hcut := hchain.updateLast (v := .null) hnotin
    show Seg (update (update s.next (s.prev .tail) .null) .head .tail) _ _ _
    rw [hlast]
    exact hcut.update hhead
  · intro z hz
    have hne : z ≠ .head ∧ z ≠ .tail := ⟨fun heq => hhead (heq ▸ hz), fun heq => htail (heq ▸ hz)⟩
    exact ⟨by simp [hne], fun heq => hnull (heq ▸ hz)⟩

/-- **`sort` of a non-empty list** returns, with the same entries, each inserted
before the first one it is smaller than. -/
theorem Linked.sort (h : Linked s l) (hne : l ≠ []) :
    ∃ s', (∀ fuel, l.length < fuel → s.sort comparator fuel = some s')
      ∧ Linked s' (l.foldl (fun l x => l.orderedInsert (s.Smaller comparator) x) [])
      ∧ s'.value = s.value ∧ s'.length = s.length := by
  cases l with
  | nil => exact absurd rfl hne
  | cons x b =>
      obtain ⟨hbegin, hlinked, hdetached⟩ := h.detach
      obtain ⟨s', hloop, hresult, hvalue, hlength⟩ :=
        sortLoop_spec comparator (x :: b) hlinked hdetached
      refine ⟨s', fun fuel hfuel => ?_, hresult, hvalue, hlength⟩
      unfold StdList.sort
      rw [hbegin]
      exact hloop fuel fuel (by simpa using Nat.le_of_lt hfuel) hfuel

theorem foldl_orderedInsert_perm (r : NodePtr → NodePtr → Prop) [DecidableRel r]
    (l : List NodePtr) : ∀ acc : List NodePtr,
    (l.foldl (fun l x => l.orderedInsert r x) acc).Perm (l ++ acc) := by
  induction l with
  | nil => intro acc; exact List.Perm.refl acc
  | cons x l ih =>
      intro acc
      rw [List.foldl_cons]
      have hins := List.perm_orderedInsert r x acc
      calc (l.foldl (fun l x => l.orderedInsert r x) (acc.orderedInsert r x)).Perm
            (l ++ acc.orderedInsert r x) := ih _
        _ |>.Perm (l ++ x :: acc) := hins.append_left l
        _ |>.Perm (x :: l ++ acc) := List.perm_middle

/-- **`sort` of an empty list** links `tail` to itself. -/
theorem Linked.sort_empty (h : Linked s []) {fuel : Nat} {s' : StdList T}
    (hsort : s.sort comparator fuel = some s') : s'.prev .tail = .tail := by
  have hbegin : s.begin = .tail := h.begin_eq (a := []) (b := []) rfl
  have hnext : update s.next (s.prev .tail) .null NodePtr.tail = .null := by
    have hprev : s.prev .tail = .head := TwoWay.prev_eq (a := []) (b := []) h.links
    rw [hprev, update_of_ne (by decide)]
    exact h.tail_next
  unfold StdList.sort at hsort
  rw [hbegin] at hsort
  -- the only round takes `tail` for an entry
  cases fuel with
  | zero => exact absurd hsort (by simp [sortLoop])
  | succ fuel =>
      have hround : sortLoop comparator (fuel + 1) fuel .null
          ((((s.setNext (s.prev .tail) .null).setNext .head .tail).setPrev .tail .head).relink
            .tail .tail) = some s' := by
        simpa [sortLoop, sortSeek, StdList.begin, setNext, setPrev, hnext] using hsort
      cases fuel with
      | zero => exact absurd hround (by simp [sortLoop])
      | succ fuel =>
          have hs' : (((s.setNext (s.prev .tail) .null).setNext .head .tail).setPrev .tail
              .head).relink .tail .tail = s' := by simpa [sortLoop] using hround
          rw [← hs']
          exact relink_prev _ _ _

end Sorting

/-! ## §4. Calls. -/

/-- A call on the list, with the address the allocator answers. -/
inductive Call (T : Type) where
  | insert (pos : NodePtr) (value : T) (address : Nat)
  | erase (pos : NodePtr)
  | pushFront (value : T) (address : Nat)
  | pushBack (value : T) (address : Nat)
  | popFront
  | popBack
  | clear
  | sort (comparator : T → T → Bool)

/-- The list after a call; the loops may take `fuel` steps. -/
def exec (fuel : Nat) (s : StdList T) : Call T → Option (StdList T)
  | .insert pos value address => some (s.insert pos value address).2
  | .erase pos => some (s.erase pos).2
  | .pushFront value address => some (s.pushFront value address)
  | .pushBack value address => some (s.pushBack value address)
  | .popFront => some s.popFront
  | .popBack => some s.popBack
  | .clear => s.clear fuel
  | .sort comparator => s.sort comparator fuel

/-- The call returns, and leaves `s'`. -/
def Step (s : StdList T) (c : Call T) (s' : StdList T) : Prop :=
  ∃ steps, ∀ fuel, steps ≤ fuel → s.exec fuel c = some s'

/-- The call is one the callers may make: iterators of this list, new entries, and
no `pop` of an empty list. -/
def Call.Proper (l : List NodePtr) : Call T → Prop
  | .insert pos _ address => (pos ∈ l ∨ pos = .tail) ∧ .entry address ∉ l
  | .erase pos => pos ∈ l ∨ pos = .tail
  | .pushFront _ address => .entry address ∉ l
  | .pushBack _ address => .entry address ∉ l
  | .popFront => l ≠ []
  | .popBack => l ≠ []
  | .clear => True
  | .sort _ => True

/-- The call does not sort an empty list, nor take the number of entries past what an
`unsigned int` counts. -/
def Call.Safe (l : List NodePtr) : Call T → Prop
  | .insert _ _ _ => l.length + 1 < 2 ^ 32
  | .pushFront _ _ => l.length + 1 < 2 ^ 32
  | .pushBack _ _ => l.length + 1 < 2 ^ 32
  | .sort _ => l ≠ []
  | _ => True

/-- The entries after a call. -/
def Call.after (s : StdList T) (l : List NodePtr) : Call T → List NodePtr
  | .insert pos _ address => l.takeWhile (· ≠ pos) ++ .entry address :: l.dropWhile (· ≠ pos)
  | .erase pos => l.erase pos
  | .pushFront _ address => .entry address :: l
  | .pushBack _ address => l ++ [.entry address]
  | .popFront => l.tail
  | .popBack => l.dropLast
  | .clear => []
  | .sort comparator => l.foldl (fun l x => l.orderedInsert (s.Smaller comparator) x) []

/-- The shape, with the counter at the number of entries. -/
structure Holds (s : StdList T) (l : List NodePtr) : Prop extends Linked s l where
  counted : s.length = UInt64.ofNat l.length

theorem Holds.size_eq (h : Holds s l) : s.size.toNat = l.length % 2 ^ 32 := by
  unfold size
  rw [h.counted, UInt64.toNat_toUInt32, UInt64.toNat_ofNat']
  omega

theorem ofNat_succ (n : Nat) : UInt64.ofNat (n + 1) = UInt64.ofNat n + 1 := by
  rw [UInt64.ofNat_add]
  rfl

theorem ofNat_succ_sub (n : Nat) : UInt64.ofNat (n + 1) - 1 = UInt64.ofNat n := by
  rw [ofNat_succ, UInt64.add_sub_cancel]

/-- The position a valid iterator stands for. -/
theorem dropWhile_headD {pos : NodePtr} (hpos : pos ∈ l ∨ pos = .tail) (htail : .tail ∉ l) :
    (l.dropWhile (· ≠ pos)).headD .tail = pos := by
  induction l with
  | nil => exact (hpos.resolve_left List.not_mem_nil).symm
  | cons x l ih =>
      by_cases hx : x = pos
      · simp [hx]
      · have hrest := ih
          (hpos.imp_left fun hmem => (List.mem_cons.mp hmem).resolve_left fun heq => hx heq.symm)
          (fun hmem => htail (List.mem_cons_of_mem x hmem))
        rw [List.dropWhile_cons_of_pos (by simpa using hx)]
        exact hrest

theorem Holds.insert (h : Holds s (a ++ b)) (value : T) {address : Nat}
    (hnew : .entry address ∉ a ++ b) :
    Holds (s.insert (b.headD .tail) value address).2 (a ++ .entry address :: b) := by
  refine ⟨h.toLinked.insert value hnew, ?_⟩
  have hlen : (a ++ NodePtr.entry address :: b).length = (a ++ b).length + 1 := by
    simp only [List.length_append, List.length_cons]
    omega
  rw [hlen, ofNat_succ, ← h.counted]
  rfl

theorem Holds.erase (h : Holds s (a ++ x :: b)) : Holds (s.erase x).2 (a ++ b) := by
  obtain ⟨hlinked, hlength⟩ := h.toLinked.erase
  refine ⟨hlinked, ?_⟩
  have hlen : (a ++ x :: b).length = (a ++ b).length + 1 := by
    simp only [List.length_append, List.length_cons]
    omega
  rw [hlength, h.counted, hlen, ofNat_succ_sub]

/-- **Every proper call but `sort` of an empty list** returns, and does to the
entries what `Call.after` says. -/
theorem Holds.exec (h : Holds s l) {c : Call T} (hproper : c.Proper l)
    (hsort : ∀ comparator, c = .sort comparator → l ≠ []) :
    ∃ s', Step s c s' ∧ Holds s' (c.after s l) := by
  suffices hexec : ∃ s', (∀ fuel, l.length < fuel → s.exec fuel c = some s')
      ∧ Holds s' (c.after s l) by
    obtain ⟨s', hreturns, hholds⟩ := hexec
    exact ⟨s', ⟨l.length + 1, hreturns⟩, hholds⟩
  cases c with
  | insert pos value address =>
      have hins := Holds.insert (a := l.takeWhile (· ≠ pos)) (b := l.dropWhile (· ≠ pos))
        (by rwa [List.takeWhile_append_dropWhile]) value
        (by rw [List.takeWhile_append_dropWhile]; exact hproper.2)
      rw [dropWhile_headD hproper.1 h.links.tail_notMem] at hins
      exact ⟨_, fun _ _ => rfl, hins⟩
  | erase pos =>
      rcases hproper with hmem | rfl
      · obtain ⟨a, b, hnot, hl, herase⟩ := List.exists_erase_eq hmem
        refine ⟨_, fun _ _ => rfl, ?_⟩
        show Holds _ (l.erase pos)
        rw [herase]
        subst hl
        exact h.erase
      · -- `end()` is left alone
        refine ⟨s, fun _ _ => rfl, ?_⟩
        show Holds s (l.erase .tail)
        rw [List.erase_of_not_mem h.links.tail_notMem]
        exact h
  | pushFront value address =>
      have hins := Holds.insert (a := []) h value hproper
      rw [← h.begin_eq (a := []) rfl] at hins
      exact ⟨_, fun _ _ => rfl, hins⟩
  | pushBack value address =>
      have hins := Holds.insert (a := l) (b := []) (by simpa using h) value
        (by simpa using show NodePtr.entry address ∉ l from hproper)
      exact ⟨_, fun _ _ => rfl, hins⟩
  | popFront =>
      cases l with
      | nil => exact absurd rfl hproper
      | cons x l =>
          have herase := Holds.erase (a := []) h
          rw [← show s.begin = x from h.begin_eq (a := []) rfl] at herase
          exact ⟨_, fun _ _ => rfl, herase⟩
  | popBack =>
      rcases List.eq_nil_or_concat l with rfl | ⟨l, x, rfl⟩
      · exact absurd rfl hproper
      · rw [List.concat_eq_append] at h ⊢
        have herase := Holds.erase (a := l) (b := []) h
        have hlast : s.prev .tail = x := by
          have hprev := TwoWay.prev_eq (a := l ++ [x]) (b := []) (by simpa using h.links)
          simpa using hprev
        rw [← hlast] at herase
        rw [List.append_nil] at herase
        refine ⟨_, fun _ _ => rfl, ?_⟩
        show Holds _ (l ++ [x]).dropLast
        rw [List.dropLast_concat]
        exact herase
  | clear =>
      obtain ⟨s', hclear, hlinked, hlength⟩ := h.toLinked.clear
      exact ⟨s', hclear, hlinked, hlength⟩
  | sort comparator =>
      obtain ⟨s', hsorted, hlinked, -, hlength⟩ := h.toLinked.sort comparator (hsort comparator rfl)
      refine ⟨s', hsorted, hlinked, ?_⟩
      have hperm := foldl_orderedInsert_perm (s.Smaller comparator) l []
      show s'.length = UInt64.ofNat (List.length (List.foldl _ [] l))
      rw [hperm.length_eq, List.append_nil, hlength, h.counted]

theorem Holds.represents_iff (h : Holds s l) : s.Represents ↔ l.length < 2 ^ 32 := by
  have hsize := h.size_eq
  constructor
  · intro ⟨l', hlinks, hsize'⟩
    have hl := hlinks.unique h.links
    subst hl
    omega
  · intro hlt
    exact ⟨l, h.links, by omega⟩

theorem holds_empty (value : NodePtr → T) : Holds (empty value) [] :=
  ⟨linked_empty value, rfl⟩

/-- Counting the entries after a call. -/
theorem length_after_iff {c : Call T} (hlt : l.length < 2 ^ 32)
    (hsort : ∀ comparator, c = .sort comparator → l ≠ []) :
    (c.after s l).length < 2 ^ 32 ↔ c.Safe l := by
  cases c with
  | insert pos value address =>
      have hsplit := congrArg List.length (List.takeWhile_append_dropWhile (p := (· ≠ pos)) (l := l))
      simp only [Call.after, Call.Safe, List.length_append, List.length_cons] at hsplit ⊢
      omega
  | erase pos =>
      have hle : (l.erase pos).length ≤ l.length := List.length_erase_le
      exact ⟨fun _ => trivial, fun _ => by
        show (l.erase pos).length < 2 ^ 32
        omega⟩
  | pushFront value address => exact Iff.rfl
  | pushBack value address => simp only [Call.after, Call.Safe, List.length_append,
      List.length_singleton]
  | popFront =>
      exact ⟨fun _ => trivial, fun _ => by
        show l.tail.length < 2 ^ 32
        rw [List.length_tail]
        omega⟩
  | popBack =>
      exact ⟨fun _ => trivial, fun _ => by
        show l.dropLast.length < 2 ^ 32
        rw [List.length_dropLast]
        omega⟩
  | clear => simp [Call.after, Call.Safe]
  | sort comparator =>
      have hperm := foldl_orderedInsert_perm (s.Smaller comparator) l []
      simp only [Call.after, Call.Safe]
      rw [hperm.length_eq, List.append_nil]
      exact ⟨fun _ => hsort comparator rfl, fun _ => hlt⟩

theorem Step.unique {c : Call T} {s₁ s₂ : StdList T} (h₁ : Step s c s₁) (h₂ : Step s c s₂) :
    s₁ = s₂ := by
  obtain ⟨n₁, h₁⟩ := h₁
  obtain ⟨n₂, h₂⟩ := h₂
  have heq := (h₁ (n₁ + n₂) (by omega)).symm.trans (h₂ (n₁ + n₂) (by omega))
  exact Option.some.inj heq

/-- **One call keeps the representation exactly when it is safe.** -/
theorem Holds.step_iff (h : Holds s l) (hlt : l.length < 2 ^ 32) {c : Call T}
    (hproper : c.Proper l) {s' : StdList T} (hst : Step s c s') :
    (s'.Represents ↔ c.Safe l) ∧ (c.Safe l → Holds s' (c.after s l)) := by
  by_cases hsort : ∀ comparator, c = .sort comparator → l ≠ []
  · obtain ⟨s'', hst', hafter⟩ := h.exec hproper hsort
    have heq := hst.unique hst'
    subst heq
    exact ⟨hafter.represents_iff.trans (length_after_iff hlt hsort), fun _ => hafter⟩
  · push Not at hsort
    obtain ⟨comparator, rfl, rfl⟩ := hsort
    have hnot : ¬ (Call.sort comparator).Safe [] := fun hsafe => hsafe rfl
    refine ⟨⟨fun ⟨l', hlinks, _⟩ => ?_, fun hsafe => absurd hsafe hnot⟩, fun hsafe => absurd hsafe hnot⟩
    -- `tail` comes before itself, and not `head`
    obtain ⟨steps, hexec⟩ := hst
    have htail := h.toLinked.sort_empty comparator (hexec steps (Nat.le_refl _))
    have hprev := TwoWay.prev_eq (a := l') (b := []) (by simpa using hlinks)
    rw [show ([] : List NodePtr).headD .tail = .tail from rfl, htail] at hprev
    rcases List.eq_nil_or_concat l' with rfl | ⟨l', y, rfl⟩
    · exact absurd hprev (by simp)
    · exact absurd (by simp [show NodePtr.tail = y by simpa using hprev]) hlinks.tail_notMem

/-! ## §5. Runs. -/

/-- The call is proper for the entries the list holds. -/
def ProperCall (_ : List (Call T)) (s : StdList T) (c : Call T) : Prop :=
  ∃ l, TwoWay s.next s.prev .head .tail l ∧ c.Proper l

/-- The call is proper and safe for the entries the list holds. -/
def SafeCall (_ : List (Call T)) (s : StdList T) (c : Call T) : Prop :=
  ∃ l, TwoWay s.next s.prev .head .tail l ∧ c.Proper l ∧ c.Safe l

theorem holds_run {value : NodePtr → T} {hist : List (Call T)}
    (hrun : GuardedRun Step SafeCall (empty value) hist s) :
    ∃ l, Holds s l ∧ l.length < 2 ^ 32 := by
  refine hrun.historyInvariant (fun _ s => ∃ l, Holds s l ∧ l.length < 2 ^ 32)
    ⟨[], holds_empty value, by decide⟩ ?_
  intro hist s c s' ⟨l, hholds, hlt⟩ ⟨l', hlinks, hproper, hsafe⟩ hst
  have hl := hlinks.unique hholds.links
  subst hl
  obtain ⟨hiff, hafter⟩ := hholds.step_iff hlt hproper hst
  have hholds' := hafter hsafe
  exact ⟨_, hholds', hholds'.represents_iff.mp (hiff.mpr hsafe)⟩

/-- **`List` KEEPS ITS REPRESENTATION** in every run of proper calls in which no
empty list is sorted and the entries stay within what `size()` counts: following
`next` from `head` and `prev` from `tail` visits the same entries in opposite
orders and arrives, and `size()` is their number.  In every state of such a run

  * every proper call returns, `sort` of a non-empty list with any comparator
    included, and
  * a proper call that returns keeps the representation EXACTLY WHEN it is safe. -/
theorem list_representation {value : NodePtr → T} {hist : List (Call T)}
    (hrun : GuardedRun Step SafeCall (empty value) hist s) :
    s.Represents
      ∧ (∀ l c, TwoWay s.next s.prev .head .tail l → c.Proper l → c.Safe l → ∃ s', Step s c s')
      ∧ (∀ l c s', TwoWay s.next s.prev .head .tail l → c.Proper l → Step s c s' →
          (s'.Represents ↔ c.Safe l)) := by
  obtain ⟨l, hholds, hlt⟩ := holds_run hrun
  refine ⟨hholds.represents_iff.mpr hlt, ?_, ?_⟩
  · intro l' c hlinks hproper hsafe
    have hl := hlinks.unique hholds.links
    subst hl
    obtain ⟨s', hst, -⟩ := hholds.exec hproper fun comparator hc => by
      subst hc
      exact hsafe
    exact ⟨s', hst⟩
  · intro l' c s' hlinks hproper hst
    have hl := hlinks.unique hholds.links
    subst hl
    exact (hholds.step_iff hlt hproper hst).1

/-- Two entries, sorted. -/
theorem list_representation_sorted :
    ∃ s : StdList Nat, GuardedRun Step SafeCall (empty fun _ => 0)
        [.sort (fun a b => decide (a < b)), .pushBack 3 2, .pushBack 5 1] s
      ∧ s.Represents := by
  have hempty := holds_empty (T := Nat) fun _ => 0
  obtain ⟨s₁, hst₁, hone⟩ := hempty.exec (c := .pushBack 5 1) (by simp [Call.Proper]) (by simp)
  obtain ⟨s₂, hst₂, htwo⟩ := hone.exec (c := .pushBack 3 2)
    (by simp [Call.Proper, Call.after]) (by simp)
  obtain ⟨s, hst, -⟩ := htwo.exec (c := .sort fun a b => decide (a < b)) trivial
    (fun _ _ => by simp [Call.after])
  have hrun : GuardedRun Step SafeCall (empty fun _ => 0)
      [.sort (fun a b => decide (a < b)), .pushBack 3 2, .pushBack 5 1] s :=
    ((GuardedRun.init.step
      ⟨_, hempty.links, by simp [Call.Proper], by simp [Call.Safe]⟩ hst₁).step
      ⟨_, hone.links, by simp [Call.Proper, Call.after], by simp [Call.Safe, Call.after]⟩ hst₂).step
      ⟨_, htwo.links, trivial, by simp [Call.Safe, Call.after]⟩ hst
  exact ⟨s, hrun, (list_representation hrun).1⟩

/-- **Sorting an empty list** breaks it. -/
theorem sort_of_empty_list :
    ¬ ∀ (hist : List (Call Nat)) (s : StdList Nat),
      GuardedRun Step ProperCall (empty fun _ => 0) hist s → s.Represents := by
  intro hclaim
  have hempty := holds_empty (T := Nat) fun _ => 0
  let c : Call Nat := .sort fun a b => decide (a < b)
  have hsort : Step (empty fun _ => 0) c _ :=
    ⟨2, fun fuel hfuel => by
      obtain ⟨fuel, rfl⟩ := Nat.exists_eq_add_of_le' hfuel
      rfl⟩
  have hproper : c.Proper [] := trivial
  have hrep := hclaim _ _ (GuardedRun.init.step ⟨[], hempty.links, hproper⟩ hsort)
  exact (hempty.step_iff (by decide) hproper hsort).1.mp hrep rfl

/-! ## §6. The order that `sort` leaves. -/

section Order

variable (comparator : T → T → Bool)

/-- **`sort` IS A STABLE SORT**, for every comparator that is a strict weak order: it
returns, the entries it leaves in the list are those that were there, ordered by their
values, and the entries tied to any value stand as they stood.  So do the values of the
forward traversal, and there is only one such order of them. -/
theorem sort_stable [IsStrictWeakOrder T fun a b => comparator a b = true] (h : Linked s l)
    (hne : l ≠ []) :
    ∃ s' l', (∀ fuel, l.length < fuel → s.sort comparator fuel = some s') ∧ Linked s' l'
      ∧ s'.value = s.value ∧ s'.length = s.length
      ∧ StableSort (fun a b => comparator a b = true) s.value l l'
      ∧ StableSort (fun a b => comparator a b = true) id (l.map s.value) (l'.map s'.value)
      ∧ ∀ values, StableSort (fun a b => comparator a b = true) id (l.map s.value) values →
          values = l'.map s'.value := by
  obtain ⟨s', hsort, hlinked, hvalue, hlength⟩ := h.sort comparator hne
  have hnil : StableSort (fun a b => comparator a b = true) s.value [] [] := stableSort_nil
  have hstable : StableSort (fun a b => comparator a b = true) s.value l
      (l.foldl (fun l x => l.orderedInsert (s.Smaller comparator) x) []) :=
    hnil.foldl (fun _ _ => Iff.rfl) l
  have hvalues := hstable.map
  rw [← hvalue] at hvalues ⊢
  exact ⟨s', _, hsort, hlinked, rfl, hlength, hvalue ▸ hstable, hvalues,
    fun values hother => hother.unique hvalues⟩

/-- Pairs by their first components. -/
def firstLess (a b : Nat × Nat) : Bool := a.1 < b.1

instance : IsStrictWeakOrder (Nat × Nat) fun a b => firstLess a b = true where
  irrefl a := by simp [firstLess]
  trans a b c := by
    simp only [firstLess, decide_eq_true_eq]
    omega
  incomp_trans a b c := by
    simp only [firstLess, decide_eq_true_eq]
    omega

theorem tied_firstLess_iff (a b : Nat × Nat) :
    Tied (fun a b => firstLess a b = true) a b ↔ a.1 = b.1 := by
  simp only [Tied, firstLess, decide_eq_true_eq]
  omega

/-- Pairs with the same first component stay in their order. -/
theorem sort_stable_pairs :
    ∃ (s s' : StdList (Nat × Nat)) (l l' : List NodePtr),
      Linked s l ∧ l.map s.value = [(2, 0), (1, 1), (2, 2), (1, 3)]
        ∧ (∃ fuel, s.sort firstLess fuel = some s')
        ∧ Linked s' l' ∧ l'.map s'.value = [(1, 1), (1, 3), (2, 0), (2, 2)] := by
  have hempty := linked_empty (T := Nat × Nat) fun _ => (0, 0)
  have hone := Linked.insert (a := []) (b := []) hempty (2, 0)
    (show NodePtr.entry 0 ∉ [] by simp)
  have htwo := Linked.insert (a := [.entry 0]) (b := []) hone (1, 1)
    (show NodePtr.entry 1 ∉ [.entry 0] by simp)
  have hthree := Linked.insert (a := [.entry 0, .entry 1]) (b := []) htwo (2, 2)
    (show NodePtr.entry 2 ∉ [.entry 0, .entry 1] by simp)
  have hfour := Linked.insert (a := [.entry 0, .entry 1, .entry 2]) (b := []) hthree (1, 3)
    (show NodePtr.entry 3 ∉ [.entry 0, .entry 1, .entry 2] by simp)
  obtain ⟨s', l', hsort, hlinked, -, -, -, -, hunique⟩ :=
    sort_stable firstLess hfour (by simp)
  refine ⟨_, s', _, l', hfour, rfl, ⟨5, hsort 5 (by decide)⟩, hlinked, (hunique _ ?_).symm⟩
  refine ⟨by decide, by decide, fun v => ?_⟩
  show List.filter _ [((1 : Nat), (1 : Nat)), (1, 3), (2, 0), (2, 2)]
    = List.filter _ [(2, 0), (1, 1), (2, 2), (1, 3)]
  simp only [tied_firstLess_iff]
  by_cases h1 : v.1 = 1
  · simp [h1]
  · by_cases h2 : v.1 = 2
    · simp [h2]
    · simp [h1, h2]

end Order

end StdList

end MierOS.Stdlib
