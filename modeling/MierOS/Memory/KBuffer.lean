/-
  MierOS.Memory.KBuffer
  **`KBuffer` AND THE PAGE RANGES IT HOLDS**: the members of `kbuffer.cpp` over
  any number of objects.

  Copies share a reference count, while the pointer and the size are per object.
  `resize` and `clear` free the range of their object without a look at the
  count, so they leave the copies with a range that is gone.

  Main result: `kbuffer_ownership`.
-/
import MierOS.Lib.Refs
import MierOS.Lib.Run

namespace MierOS.Memory.KBuffer

open Lib Lib.Refs
open Function (update update_comm update_eq_self update_idem update_of_ne update_self)

/-! ## §1. The code. -/

/-- The address of a `KBuffer` object. -/
abbrev ObjPtr := Nat

/-- A page range, by the `kalloc` call that returned it; as a pointer, its start. -/
abbrev Range := Nat

/-- The address of a reference count. -/
abbrev CountPtr := Nat

/-- A `KBuffer`; null pointers are `none`. -/
structure Buffer where
  rawPtr : Option Range
  pageSize : Nat
  refCount : Option CountPtr
  deriving Repr, DecidableEq

/-- The objects that are alive, the reference counts, the length in pages of every
range `kalloc` returned, and the calls of `Pager::free` with the start and the
length they were given. -/
structure Heap where
  objects : ObjPtr → Option Buffer
  counts : List (BitVec 32)
  kallocs : List Nat
  frees : List (Range × Nat)

namespace Heap

/-- No object yet. -/
def init : Heap := ⟨fun _ => none, [], [], []⟩

def setObject (s : Heap) (this : ObjPtr) (b : Option Buffer) : Heap :=
  { s with objects := update s.objects this b }

def count (s : Heap) (c : CountPtr) : BitVec 32 := s.counts.getD c 0

def setCount (s : Heap) (c : CountPtr) (n : BitVec 32) : Heap :=
  { s with counts := s.counts.set c n }

/-- `pager.kalloc(pages)`; null when `found` is false. -/
def kalloc (s : Heap) (pages : Nat) (found : Bool) : Heap × Option Range :=
  if found then ({ s with kallocs := s.kallocs ++ [pages] }, some s.kallocs.length)
  else (s, none)

/-- `pager.free(raw_ptr, page_size)`. -/
def free (s : Heap) (r : Range) (pages : Nat) : Heap := { s with frees := s.frees ++ [(r, pages)] }

/-- Bytes in whole pages. -/
def pagesOf (size : Nat) : Nat := (size >>> 12) + if size &&& 0xFFF = 0 then 0 else 1

/-- `KBuffer(size)`. -/
def construct (s : Heap) (this : ObjPtr) (size : Nat) (found : Bool) : Heap :=
  let c := s.counts.length
  let s := { s with counts := s.counts ++ [1] }
  if size = 0 then s.setObject this (some ⟨none, 0, some c⟩)
  else
    let (s, r) := s.kalloc (pagesOf size) found
    s.setObject this (some ⟨r, pagesOf size, some c⟩)

/-- `if(ref_count != 0 && ref_count->fetch_sub(1) == 1 && raw_ptr != 0)`, with the
`free` behind it: the destructor, and how both assignments begin. -/
def release (s : Heap) (b : Buffer) : Heap :=
  match b.refCount with
  | none => s
  | some c =>
      let n := s.count c
      let s := s.setCount c (n - 1)
      match b.rawPtr with
      | none => s
      | some r => if n = 1 then s.free r b.pageSize else s

/-- `ref_count->fetch_add(1)`; the pointer must not be null. -/
def fetchAdd (s : Heap) (c : Option CountPtr) : Option Heap :=
  match c with
  | none => none
  | some c => some (s.setCount c (s.count c + 1))

/-- `KBuffer(const KBuffer& other)`. -/
def copyConstruct (s : Heap) (this other : ObjPtr) : Option Heap :=
  match s.objects other with
  | none => none
  | some b => (s.setObject this (some b)).fetchAdd b.refCount

/-- What a move leaves behind; `page_size` stays. -/
def Buffer.movedFrom (b : Buffer) : Buffer := { b with rawPtr := none, refCount := none }

/-- `KBuffer(KBuffer&& other)`. -/
def moveConstruct (s : Heap) (this other : ObjPtr) : Option Heap :=
  match s.objects other with
  | none => none
  | some b => some ((s.setObject this (some b)).setObject other (some (Buffer.movedFrom b)))

/-- `operator=(const KBuffer& other)`. -/
def copyAssign (s : Heap) (this other : ObjPtr) : Option Heap :=
  match s.objects this, s.objects other with
  | some old, some b => ((s.release old).setObject this (some b)).fetchAdd b.refCount
  | _, _ => none

/-- `operator=(KBuffer&& other)`. -/
def moveAssign (s : Heap) (this other : ObjPtr) : Option Heap :=
  match s.objects this, s.objects other with
  | some old, some b =>
      some (((s.release old).setObject this (some b)).setObject other (some (Buffer.movedFrom b)))
  | _, _ => none

/-- `~KBuffer()`. -/
def destroy (s : Heap) (this : ObjPtr) : Option Heap :=
  match s.objects this with
  | none => none
  | some b => some ((s.release b).setObject this none)

/-- `resize(new_size)`.  The bytes are copied into the new range, which faults when
there are some and `kalloc` returned null. -/
def resize (s : Heap) (this : ObjPtr) (newSize : Nat) (found : Bool) : Option Heap :=
  match s.objects this with
  | none => none
  | some b =>
      let (s, r) := s.kalloc (pagesOf newSize) found
      let s := s.setObject this (some { b with rawPtr := r, pageSize := pagesOf newSize })
      match b.rawPtr with
      | none => some s
      | some old =>
          let copySize := if b.pageSize > pagesOf newSize then pagesOf newSize else b.pageSize
          if r = none ∧ copySize ≠ 0 then none
          else some (s.free old b.pageSize)

/-- `clear()`. -/
def clear (s : Heap) (this : ObjPtr) : Option Heap :=
  match s.objects this with
  | none => none
  | some b =>
      match b.rawPtr with
      | none => some s
      | some r =>
          some ((s.free r b.pageSize).setObject this (some { b with rawPtr := none, pageSize := 0 }))

end Heap

/-- What a program does with its `KBuffer` objects; `found` is whether `kalloc` finds
a range. -/
inductive Event where
  | construct (this : ObjPtr) (size : Nat) (found : Bool)
  | copyConstruct (this other : ObjPtr)
  | moveConstruct (this other : ObjPtr)
  | copyAssign (this other : ObjPtr)
  | moveAssign (this other : ObjPtr)
  | resize (this : ObjPtr) (newSize : Nat) (found : Bool)
  | clear (this : ObjPtr)
  | destroy (this : ObjPtr)
  deriving Repr, DecidableEq

def exec (s : Heap) : Event → Option Heap
  | .construct this size found => some (s.construct this size found)
  | .copyConstruct this other => s.copyConstruct this other
  | .moveConstruct this other => s.moveConstruct this other
  | .copyAssign this other => s.copyAssign this other
  | .moveAssign this other => s.moveAssign this other
  | .resize this newSize found => s.resize this newSize found
  | .clear this => s.clear this
  | .destroy this => s.destroy this

def Step (s : Heap) (e : Event) (s' : Heap) : Prop := exec s e = some s'

/-- Constructors run on free memory, other members on objects. -/
def Proper (s : Heap) : Event → Prop
  | .construct this _ _ => s.objects this = none
  | .copyConstruct this other => s.objects this = none ∧ s.objects other ≠ none
  | .moveConstruct this other => s.objects this = none ∧ s.objects other ≠ none
  | .copyAssign this other => s.objects this ≠ none ∧ s.objects other ≠ none
  | .moveAssign this other => s.objects this ≠ none ∧ s.objects other ≠ none
  | .resize this _ _ => s.objects this ≠ none
  | .clear this => s.objects this ≠ none
  | .destroy this => s.objects this ≠ none

/-- The pointer of an object. -/
def Heap.rawPtr (s : Heap) (this : ObjPtr) : Option Range := (s.objects this).bind Buffer.rawPtr

/-- The reference count of an object. -/
def Heap.refCount (s : Heap) (this : ObjPtr) : Option CountPtr :=
  (s.objects this).bind Buffer.refCount

/-- Another copy of `b` can be counted: it was not moved from and the count does not
wrap. -/
def Heap.Copyable (s : Heap) (other : ObjPtr) : Prop :=
  ∃ c, s.refCount other = some c ∧ s.count c ≠ 0xFFFFFFFF

/-- No other object has the range of this one. -/
def Heap.Unshared (s : Heap) (this : ObjPtr) : Prop :=
  ∃ c, s.refCount this = some c ∧ s.count c = 1

/-- **The condition on a step.**  A copy is made of a buffer that was not moved from
and whose count does not wrap; a buffer assigned to itself is shared or holds nothing;
`resize` and `clear` are of a buffer that is not shared, unless there is nothing to
clear. -/
def Meets (s : Heap) : Event → Prop
  | .copyConstruct _ other => s.Copyable other
  | .copyAssign this other =>
      if this = other then
        s.refCount this ≠ none ∧ (s.rawPtr this ≠ none → ¬ s.Unshared this)
      else s.Copyable other ∨ (s.refCount other ≠ none ∧ s.refCount this = s.refCount other)
  | .resize this _ _ => s.Unshared this
  | .clear this => s.rawPtr this = none ∨ s.Unshared this
  | _ => True

/-! ## §2. Who owns a range. -/

/-- What a reference count owns: the pointer and the size its buffers agree on. -/
abbrev Owners := CountPtr → Option Range × Nat

/-- **The ledger**: every range that `kalloc` returned is owned by one count or was
freed, once and with its length. -/
structure Ledger (kallocs : List Nat) (frees : List (Range × Nat)) (own : Owners) : Prop where
  injective : ∀ c c' r, (own c).1 = some r → (own c').1 = some r → c = c'
  owned : ∀ c r, (own c).1 = some r → kallocs[r]? = some (own c).2 ∧ r ∉ frees.map Prod.fst
  kept : ∀ r, r < kallocs.length → r ∈ frees.map Prod.fst ∨ ∃ c, (own c).1 = some r
  freed : ∀ r n, (r, n) ∈ frees → kallocs[r]? = some n
  once : (frees.map Prod.fst).Nodup

namespace Ledger

variable {kallocs : List Nat} {frees : List (Range × Nat)} {own : Owners} {c : CountPtr}

theorem init : Ledger [] [] (fun _ => (none, 0)) where
  injective := fun c c' r h => by cases h
  owned := fun c r h => by cases h
  kept := fun r h => absurd h (Nat.not_lt_zero r)
  freed := fun r n h => absurd h List.not_mem_nil
  once := List.nodup_nil

/-- Who owned a range before the count `c` got `v`: the same count, as long as `v` is
not that range. -/
theorem own_of_update {v : Option Range × Nat} {a : CountPtr} {r : Range}
    (h : (update own c v a).1 = some r) :
    (a = c ∧ v.1 = some r) ∨ (a ≠ c ∧ (own a).1 = some r) := by
  by_cases ha : a = c
  · rw [ha, update_self] at h
    exact Or.inl ⟨ha, h⟩
  · rw [update_of_ne ha] at h
    exact Or.inr ⟨ha, h⟩

theorem own_of_update_null {n : Nat} {a : CountPtr} {r : Range}
    (h : (update own c (none, n) a).1 = some r) : a ≠ c ∧ (own a).1 = some r := by
  rcases own_of_update h with ⟨_, hnone⟩ | hold
  · cases hnone
  · exact hold

/-- A range of nothing: the size does not matter. -/
theorem setNull (h : Ledger kallocs frees own) (hc : (own c).1 = none) (n : Nat) :
    Ledger kallocs frees (update own c (none, n)) := by
  constructor
  case injective =>
    intro a b r ha hb
    exact h.injective a b r (own_of_update_null ha).2 (own_of_update_null hb).2
  case owned =>
    intro a r ha
    obtain ⟨hne, hold⟩ := own_of_update_null ha
    rw [update_of_ne hne]
    exact h.owned a r hold
  case kept =>
    intro r hr
    rcases h.kept r hr with hfree | ⟨a, ha⟩
    · exact Or.inl hfree
    · have hne : a ≠ c := by
        rintro rfl
        rw [hc] at ha
        cases ha
      exact Or.inr ⟨a, by rw [update_of_ne hne]; exact ha⟩
  case freed => exact h.freed
  case once => exact h.once

/-- **The range of a count is freed.** -/
theorem free (h : Ledger kallocs frees own) {r : Range} (hc : (own c).1 = some r) (n : Nat) :
    Ledger kallocs (frees ++ [(r, (own c).2)]) (update own c (none, n)) := by
  have hmem : ∀ x, x ∈ (frees ++ [(r, (own c).2)]).map Prod.fst ↔ x ∈ frees.map Prod.fst ∨ x = r := by
    intro x
    rw [List.map_append, List.mem_append]
    exact or_congr_right List.mem_singleton
  constructor
  case injective =>
    intro a b x ha hb
    exact h.injective a b x (own_of_update_null ha).2 (own_of_update_null hb).2
  case owned =>
    intro a x ha
    obtain ⟨hne, hold⟩ := own_of_update_null ha
    rw [update_of_ne hne, hmem x]
    obtain ⟨hlen, hlive⟩ := h.owned a x hold
    refine ⟨hlen, ?_⟩
    rintro (hfree | rfl)
    · exact hlive hfree
    · exact hne (h.injective a c x hold hc)
  case kept =>
    intro x hx
    rw [hmem x]
    rcases h.kept x hx with hfree | ⟨a, ha⟩
    · exact Or.inl (Or.inl hfree)
    · by_cases hne : a = c
      · rw [hne, hc] at ha
        exact Or.inl (Or.inr (Option.some.inj ha).symm)
      · exact Or.inr ⟨a, by rw [update_of_ne hne]; exact ha⟩
  case freed =>
    intro x m hx
    rcases List.mem_append.mp hx with hold | hnew
    · exact h.freed x m hold
    · rw [List.mem_singleton, Prod.mk.injEq] at hnew
      rw [hnew.1, hnew.2]
      exact (h.owned c r hc).1
  case once =>
    rw [List.map_append, List.nodup_append]
    refine ⟨h.once, List.nodup_singleton r, ?_⟩
    intro x hx y hy hxy
    have hy : y = r := List.mem_singleton.mp hy
    exact (h.owned c r hc).2 (hy ▸ hxy ▸ hx)

/-- **A new range** for a count that has none. -/
theorem kalloc (h : Ledger kallocs frees own) (hc : (own c).1 = none) (n : Nat) :
    Ledger (kallocs ++ [n]) frees (update own c (some kallocs.length, n)) := by
  have hold : ∀ {r m : Nat}, kallocs[r]? = some m → (kallocs ++ [n])[r]? = some m := by
    intro r m hr
    rw [List.getElem?_append_left (List.getElem?_eq_some_iff.mp hr).1]
    exact hr
  have hnew : ∀ a, (own a).1 ≠ some kallocs.length := by
    intro a ha
    have hlt := (List.getElem?_eq_some_iff.mp (h.owned a _ ha).1).1
    exact Nat.lt_irrefl _ hlt
  constructor
  case injective =>
    -- the new range has the next number, which no count owned before
    intro a b r ha hb
    rcases own_of_update ha with ⟨hac, hr⟩ | ⟨_, haold⟩
    · rcases own_of_update hb with ⟨hbc, _⟩ | ⟨_, hbold⟩
      · exact hac.trans hbc.symm
      · rw [← hr] at hbold
        exact absurd hbold (hnew b)
    · rcases own_of_update hb with ⟨_, hr⟩ | ⟨_, hbold⟩
      · rw [← hr] at haold
        exact absurd haold (hnew a)
      · exact h.injective a b r haold hbold
  case owned =>
    intro a r ha
    rcases own_of_update ha with ⟨rfl, hr⟩ | ⟨hne, ha⟩
    · have hr : kallocs.length = r := Option.some.inj hr
      rw [update_self, ← hr]
      refine ⟨List.getElem?_concat_length, ?_⟩
      intro hfree
      -- only ranges that exist were freed
      obtain ⟨⟨x, m⟩, hx, hxlen⟩ := List.mem_map.mp hfree
      have hxm := h.freed x m hx
      rw [show x = kallocs.length from hxlen] at hxm
      exact Nat.lt_irrefl _ (List.getElem?_eq_some_iff.mp hxm).1
    · rw [update_of_ne hne]
      exact ⟨hold (h.owned a r ha).1, (h.owned a r ha).2⟩
  case kept =>
    intro r hr
    rw [List.length_append, List.length_singleton] at hr
    by_cases hlast : r = kallocs.length
    · exact Or.inr ⟨c, by rw [update_self, hlast]⟩
    · rcases h.kept r (by omega) with hfree | ⟨a, ha⟩
      · exact Or.inl hfree
      · have hne : a ≠ c := by
          rintro rfl
          rw [hc] at ha
          cases ha
        exact Or.inr ⟨a, by rw [update_of_ne hne]; exact ha⟩
  case freed => exact fun r m hr => hold (h.freed r m hr)
  case once => exact h.once

end Ledger

/-! ## §3. The counts are right. -/

/-- The objects agree on what the counts own. -/
structure Agree (objects : ObjPtr → Option Buffer) (own : Owners) : Prop where
  shared : ∀ i b c, objects i = some b → b.refCount = some c → (b.rawPtr, b.pageSize) = own c
  null : ∀ i b, objects i = some b → b.refCount = none → b.rawPtr = none

/-- **The invariant**: a count says how many objects share it, these agree on the
range that the count owns, and the ledger of the ranges is in order. -/
structure Inv (s : Heap) (own : Owners) : Prop where
  finite : Finite s.refCount
  count : ∀ c, (s.count c).toNat = refs s.refCount c
  agree : Agree s.objects own
  unused : ∀ c, refs s.refCount c = 0 → (own c).1 = none
  ledger : Ledger s.kallocs s.frees own

theorem Inv.init : Inv Heap.init (fun _ => (none, 0)) where
  finite := finite_none
  count := fun c => (refs_eq_zero (fun i h => by cases h)).symm
  agree := ⟨fun i b c h _ => (Option.some_ne_none b h.symm).elim,
    fun i b h _ => (Option.some_ne_none b h.symm).elim⟩
  unused := fun c _ => rfl
  ledger := Ledger.init

section Steps

variable {s t : Heap} {own own' : Owners} {this other : ObjPtr} {b : Buffer} {c : CountPtr}

/-- No object here, or one that has nothing. -/
def Empty (o : Option Buffer) : Prop :=
  o.bind Buffer.refCount = none ∧ o.bind Buffer.rawPtr = none

theorem empty_none : Empty none := ⟨rfl, rfl⟩

theorem empty_movedFrom (b : Buffer) : Empty (some (Heap.Buffer.movedFrom b)) := ⟨rfl, rfl⟩

theorem refCount_of_object (h : s.objects this = some b) : s.refCount this = b.refCount := by
  unfold Heap.refCount
  rw [h]
  rfl

theorem rawPtr_of_object (h : s.objects this = some b) : s.rawPtr this = b.rawPtr := by
  unfold Heap.rawPtr
  rw [h]
  rfl

theorem refCount_setObject (s : Heap) (this : ObjPtr) (o : Option Buffer) :
    (s.setObject this o).refCount = update s.refCount this (o.bind Buffer.refCount) :=
  Function.comp_update (fun o : Option Buffer => o.bind Buffer.refCount) s.objects this o

theorem count_setCount (h : c < s.counts.length) (n : BitVec 32) (a : CountPtr) :
    (s.setCount c n).count a = if a = c then n else s.count a := by
  show (s.counts.set c n).getD a 0 = if a = c then n else s.counts.getD a 0
  rw [List.getD_eq_getElem?_getD, List.getD_eq_getElem?_getD, List.getElem?_set]
  by_cases ha : a = c
  · subst ha
    rw [if_pos rfl, if_pos h, if_pos rfl]
    rfl
  · rw [if_neg (Ne.symm ha), if_neg ha]

/-- **One object changes**, and the counts of the others own what they owned. -/
theorem Agree.change {objects : ObjPtr → Option Buffer} (h : Agree objects own)
    (hother : ∀ j b c, j ≠ this → objects j = some b → b.refCount = some c → own' c = own c)
    {o : Option Buffer}
    (hnew : ∀ b, o = some b → (∀ c, b.refCount = some c → (b.rawPtr, b.pageSize) = own' c)
      ∧ (b.refCount = none → b.rawPtr = none)) :
    Agree (update objects this o) own' := by
  constructor
  · intro j b c hj hc
    by_cases hji : j = this
    · rw [hji, update_self] at hj
      exact (hnew b hj).1 c hc
    · rw [update_of_ne hji] at hj
      rw [hother j b c hji hj hc]
      exact h.shared j b c hj hc
  · intro j b hj hc
    by_cases hji : j = this
    · rw [hji, update_self] at hj
      exact (hnew b hj).2 hc
    · rw [update_of_ne hji] at hj
      exact h.null j b hj hc

/-- An object goes, or is left with nothing. -/
theorem Agree.change_empty {objects : ObjPtr → Option Buffer} (h : Agree objects own)
    (hother : ∀ j b c, j ≠ this → objects j = some b → b.refCount = some c → own' c = own c)
    {o : Option Buffer} (ho : Empty o) : Agree (update objects this o) own' := by
  refine h.change hother fun b hb => ?_
  rw [hb] at ho
  refine ⟨fun c hc => ?_, fun _ => ho.2⟩
  rw [show b.refCount = none from ho.1] at hc
  cases hc

/-- The count of an object is there and not zero. -/
theorem Inv.count_pos (h : Inv s own) (hc : s.refCount this = some c) :
    c < s.counts.length ∧ 0 < (s.count c).toNat := by
  have hpos : 0 < (s.count c).toNat := by
    rw [h.count c]
    exact refs_pos h.finite hc
  refine ⟨?_, hpos⟩
  by_contra hout
  have hzero : s.count c = 0 := by
    unfold Heap.count
    rw [List.getD_eq_getElem?_getD, List.getElem?_eq_none (Nat.le_of_not_lt hout)]
    rfl
  rw [hzero] at hpos
  exact Nat.lt_irrefl 0 hpos

/-- An object without a count goes, or is left with nothing. -/
theorem Inv.setEmpty (h : Inv s own) (hthis : s.refCount this = none) {o : Option Buffer}
    (ho : Empty o) : Inv (s.setObject this o) own := by
  have hsame : (s.setObject this o).refCount = s.refCount := by
    rw [refCount_setObject, ho.1, update_none_of_none hthis]
  constructor
  case finite => rw [hsame]; exact h.finite
  case count => rw [hsame]; exact h.count
  case agree => exact h.agree.change_empty (fun _ _ _ _ _ _ => rfl) ho
  case unused => rw [hsame]; exact h.unused
  case ledger => exact h.ledger

/-- **An object gives up its count**, which leaves `n - 1` others. -/
theorem Inv.countDown (h : Inv s own) (hthis : s.refCount this = some c) (a : CountPtr) :
    (((s.setCount c (s.count c - 1)).count a).toNat = refs (update s.refCount this none) a)
      ∧ refs (update s.refCount this none) a + (if a = c then 1 else 0) = refs s.refCount a := by
  obtain ⟨hlt, hpos⟩ := h.count_pos hthis
  have hrefs := refs_set_none h.finite hthis a
  refine ⟨?_, hrefs.symm⟩
  rw [count_setCount hlt]
  by_cases ha : a = c
  · subst ha
    rw [if_pos rfl] at hrefs ⊢
    have hcount := h.count a
    rw [BitVec.toNat_sub_of_le (by rw [BitVec.le_def]; exact hpos)]
    show (s.count a).toNat - 1 = _
    omega
  · rw [if_neg ha] at hrefs ⊢
    rw [h.count a]
    omega

/-- The others that share a count when it is not 1. -/
theorem Inv.letGo_shared (h : Inv s own) (hthis : s.refCount this = some c) (hn : s.count c ≠ 1)
    {o : Option Buffer} (ho : Empty o) :
    Inv ((s.setCount c (s.count c - 1)).setObject this o) own := by
  have hdown := h.countDown hthis
  have hmap : ((s.setCount c (s.count c - 1)).setObject this o).refCount
      = update s.refCount this none := by
    rw [refCount_setObject, ho.1]
    rfl
  constructor
  case finite => rw [hmap]; exact h.finite.update this none
  case count => rw [hmap]; exact fun a => (hdown a).1
  case agree => exact h.agree.change_empty (fun _ _ _ _ _ _ => rfl) ho
  case unused =>
    intro a ha
    rw [hmap] at ha
    obtain ⟨_, hrefs⟩ := hdown a
    by_cases hac : a = c
    · -- somebody else still shares it
      subst hac
      rw [if_pos rfl, ha] at hrefs
      have hone : (s.count a).toNat = 1 := by rw [h.count a]; omega
      exact absurd (BitVec.eq_of_toNat_eq hone) hn
    · rw [if_neg hac] at hrefs
      exact h.unused a (by omega)
  case ledger => exact h.ledger

/-- **The last object of a count**: the count owns nothing from here on. -/
theorem Inv.letGo_last (h : Inv s own) (hthis : s.refCount this = some c) (hn : s.count c = 1)
    {o : Option Buffer} (ho : Empty o) {frees : List (Range × Nat)}
    (hledger : Ledger s.kallocs frees (update own c (none, 0))) :
    Inv { (s.setCount c (s.count c - 1)).setObject this o with frees := frees }
      (update own c (none, 0)) := by
  have hdown := h.countDown hthis
  have hmap : Heap.refCount { (s.setCount c (s.count c - 1)).setObject this o with frees := frees }
      = update s.refCount this none := by
    rw [← ho.1]
    exact refCount_setObject s this o
  have hself : refs (update s.refCount this none) c = 0 := by
    have hrefs := (hdown c).2
    have hone : (s.count c).toNat = 1 := by rw [hn]; rfl
    rw [if_pos rfl, ← h.count c] at hrefs
    omega
  constructor
  case finite => rw [hmap]; exact h.finite.update this none
  case count => rw [hmap]; exact fun a => (hdown a).1
  case agree =>
    refine h.agree.change_empty (fun j b a hji hj ha => ?_) ho
    refine update_of_ne ?_ _ _
    rintro rfl
    refine ne_of_refs_eq_zero (h.finite.update this none) hself j ?_
    rw [update_of_ne hji, refCount_of_object hj]
    exact ha
  case unused =>
    intro a ha
    rw [hmap] at ha
    by_cases hac : a = c
    · rw [hac, update_self]
    · have hrefs := (hdown a).2
      rw [if_neg hac] at hrefs
      rw [update_of_ne hac]
      exact h.unused a (by omega)
  case ledger => exact hledger

/-- **What the destructor and both assignments begin with**: the object lets go of what
it has, and the last one frees it. -/
theorem Inv.letGo (h : Inv s own) (hthis : s.objects this = some b) {o : Option Buffer}
    (ho : Empty o) : ∃ own', Inv ((s.release b).setObject this o) own' := by
  have hcount := refCount_of_object hthis
  unfold Heap.release
  cases hc : b.refCount with
  | none => exact ⟨own, h.setEmpty (hcount.trans hc) ho⟩
  | some c =>
      rw [hc] at hcount
      have hown := h.agree.shared this b c hthis hc
      dsimp only
      cases hr : b.rawPtr with
      | none =>
          dsimp only
          by_cases hn : s.count c = 1
          · exact ⟨_, h.letGo_last hcount hn ho (h.ledger.setNull (by rw [← hown]; exact hr) 0)⟩
          · exact ⟨own, h.letGo_shared hcount hn ho⟩
      | some r =>
          dsimp only
          by_cases hn : s.count c = 1
          · rw [if_pos hn]
            have hfree := h.ledger.free (c := c) (r := r) (by rw [← hown]; exact hr) 0
            rw [← hown] at hfree
            exact ⟨_, h.letGo_last hcount hn ho hfree⟩
          · rw [if_neg hn]
            exact ⟨own, h.letGo_shared hcount hn ho⟩

/-- **An object joins a count**, or is the first of a new one. -/
theorem Inv.attach (h : Inv s own) (hthis : s.refCount this = none) (hb : b.refCount = some c)
    (hobjects : t.objects = update s.objects this (some b))
    (hcounts : ∀ a, t.count a = if a = c then s.count c + 1 else s.count a)
    (hmax : s.count c ≠ 0xFFFFFFFF) (hkept : ∀ a, a ≠ c → own' a = own a)
    (hself : refs s.refCount c = 0 ∨ own' c = own c) (hown : (b.rawPtr, b.pageSize) = own' c)
    (hledger : Ledger t.kallocs t.frees own') : Inv t own' := by
  have hmap : t.refCount = update s.refCount this (some c) := by
    rw [← hb]
    unfold Heap.refCount
    rw [hobjects]
    exact Function.comp_update (fun o : Option Buffer => o.bind Buffer.refCount) s.objects this (some b)
  have hrefs : ∀ a, refs t.refCount a = refs s.refCount a + if a = c then 1 else 0 := by
    intro a
    rw [hmap]
    exact refs_set_some h.finite hthis c a
  constructor
  case finite => rw [hmap]; exact h.finite.update this (some c)
  case count =>
    intro a
    rw [hrefs a, hcounts a]
    by_cases ha : a = c
    · subst ha
      rw [if_pos rfl, if_pos rfl, ← h.count a]
      have hlt : (s.count a).toNat ≠ 4294967295 := fun heq => hmax (BitVec.eq_of_toNat_eq heq)
      have hbound := (s.count a).isLt
      rw [BitVec.toNat_add]
      show ((s.count a).toNat + 1) % 2 ^ 32 = _
      omega
    · rw [if_neg ha, if_neg ha, h.count a]
      rfl
  case agree =>
    rw [hobjects]
    refine h.agree.change (fun j b' a hji hj ha => ?_) fun b' hb' => ?_
    · by_cases hac : a = c
      -- a count nobody shared may own something else from here on
      · subst hac
        rcases hself with hzero | hsame
        · refine absurd ?_ (ne_of_refs_eq_zero h.finite hzero j)
          rw [refCount_of_object hj]
          exact ha
        · exact hsame
      · exact hkept a hac
    · cases hb'
      refine ⟨fun a ha => ?_, fun hnone => ?_⟩
      · rw [hb] at ha
        cases ha
        exact hown
      · rw [hb] at hnone
        cases hnone
  case unused =>
    intro a ha
    rw [hrefs a] at ha
    have hac : a ≠ c := by
      rintro rfl
      rw [if_pos rfl] at ha
      omega
    rw [hkept a hac]
    exact h.unused a (by omega)
  case ledger => exact hledger

/-- **What an object has goes to another one.** -/
theorem Inv.move (h : Inv s own) (hother : s.objects other = some b) (hne : this ≠ other)
    (hthis : s.refCount this = none) :
    Inv ((s.setObject this (some b)).setObject other (some (Heap.Buffer.movedFrom b))) own := by
  have hmap : ((s.setObject this (some b)).setObject other (some (Heap.Buffer.movedFrom b))).refCount
      = update (update s.refCount other none) this b.refCount := by
    rw [refCount_setObject, refCount_setObject, update_comm hne]
    rfl
  have hcount := refCount_of_object hother
  have hclear : update s.refCount other none this = none := by
    rw [update_of_ne hne]
    exact hthis
  -- one object loses the count that the other gets
  have hrefs : ∀ a, refs (update (update s.refCount other none) this b.refCount) a
      = refs s.refCount a := by
    intro a
    cases hb : b.refCount with
    | none =>
        rw [update_none_of_none hclear, update_none_of_none (hcount.trans hb)]
    | some c =>
        have hset := refs_set_some (h.finite.update other none) hclear c a
        have hold := refs_set_none h.finite (hcount.trans hb) a
        omega
  have hagree : Agree (update s.objects this (some b)) own := by
    refine h.agree.change (fun _ _ _ _ _ _ => rfl) fun b' hb' => ?_
    cases hb'
    exact ⟨fun a ha => h.agree.shared other b a hother ha, h.agree.null other b hother⟩
  constructor
  case finite => rw [hmap]; exact (h.finite.update other none).update this _
  case count =>
    intro a
    rw [hmap, hrefs a]
    exact h.count a
  case agree => exact hagree.change_empty (fun _ _ _ _ _ _ => rfl) (empty_movedFrom b)
  case unused =>
    intro a ha
    rw [hmap, hrefs a] at ha
    exact h.unused a ha
  case ledger => exact h.ledger

/-- **An object that shares its count with nobody** gets another range, or none. -/
theorem Inv.replace (h : Inv s own) (hthis : s.objects this = some b) (hc : b.refCount = some c)
    (hone : s.count c = 1) (b' : Buffer) (hc' : b'.refCount = some c)
    (hobjects : t.objects = update s.objects this (some b')) (hcounts : t.counts = s.counts)
    (hledger : Ledger t.kallocs t.frees (update own c (b'.rawPtr, b'.pageSize))) :
    Inv t (update own c (b'.rawPtr, b'.pageSize)) := by
  have hcount : s.refCount this = some c := (refCount_of_object hthis).trans hc
  have hmap : t.refCount = s.refCount := by
    have hupdate : t.refCount = update s.refCount this (some c) := by
      rw [← hc']
      unfold Heap.refCount
      rw [hobjects]
      exact Function.comp_update (fun o : Option Buffer => o.bind Buffer.refCount) s.objects this
        (some b')
    rw [hupdate, ← hcount, update_eq_self]
  have hunique : refs s.refCount c ≤ 1 := by
    rw [← h.count c, hone]
    exact Nat.le_refl 1
  constructor
  case finite => rw [hmap]; exact h.finite
  case count =>
    intro a
    rw [hmap, ← h.count a]
    unfold Heap.count
    rw [hcounts]
  case agree =>
    rw [hobjects]
    refine h.agree.change (fun j b₁ a hji hj ha => ?_) fun b₁ hb₁ => ?_
    · refine update_of_ne ?_ _ _
      rintro rfl
      -- two objects would share the count
      exact hji (unique_of_refs_le_one h.finite hunique ((refCount_of_object hj).trans ha) hcount)
    · cases hb₁
      refine ⟨fun a ha => ?_, fun hnone => ?_⟩
      · rw [hc'] at ha
        cases ha
        rw [update_self]
      · rw [hc'] at hnone
        cases hnone
  case unused =>
    intro a ha
    rw [hmap] at ha
    have hac : a ≠ c := by
      rintro rfl
      exact ne_of_refs_eq_zero h.finite ha this hcount
    rw [update_of_ne hac]
    exact h.unused a ha
  case ledger => exact hledger

/-! ### The members. -/

theorem release_objects (s : Heap) (b : Buffer) : (s.release b).objects = s.objects := by
  unfold Heap.release
  split
  · rfl
  · dsimp only
    split
    · rfl
    · split <;> rfl

theorem refCount_of_free (hthis : s.objects this = none) : s.refCount this = none := by
  unfold Heap.refCount
  rw [hthis]
  rfl

theorem Inv.construct (h : Inv s own) (hthis : s.objects this = none) (size : Nat) (found : Bool) :
    ∃ own', Inv (s.construct this size found) own' := by
  have hnone := refCount_of_free hthis
  have hzero : s.count s.counts.length = 0 := by
    unfold Heap.count
    rw [List.getD_eq_getElem?_getD, List.getElem?_eq_none (Nat.le_refl _)]
    rfl
  have hrefs : refs s.refCount s.counts.length = 0 := by
    rw [← h.count, hzero]
    rfl
  have hcounts : ∀ a, (s.counts ++ [1]).getD a 0
      = if a = s.counts.length then s.count s.counts.length + 1 else s.count a := by
    intro a
    unfold Heap.count
    rw [List.getD_eq_getElem?_getD, List.getD_eq_getElem?_getD, List.getD_eq_getElem?_getD]
    by_cases ha : a = s.counts.length
    · rw [ha, if_pos rfl, List.getElem?_concat_length, List.getElem?_eq_none (Nat.le_refl _)]
      rfl
    · rw [if_neg ha, List.getElem?_append]
      split
      · rfl
      · rw [List.getElem?_eq_none (l := s.counts) (by omega), List.getElem?_eq_none (by simp; omega)]
  have hown := h.unused _ hrefs
  have hmax : s.count s.counts.length ≠ 0xFFFFFFFF := by
    rw [hzero]
    decide
  -- whatever the new count owns, as long as the ledger says so
  have hall : ∀ (r : Option Range) (n : Nat) (kallocs : List Nat),
      Ledger kallocs s.frees (update own s.counts.length (r, n)) →
      Inv ⟨update s.objects this (some ⟨r, n, some s.counts.length⟩), s.counts ++ [1],
        kallocs, s.frees⟩ (update own s.counts.length (r, n)) := by
    intro r n kallocs hledger
    refine h.attach hnone rfl rfl hcounts hmax (fun a ha => update_of_ne ha _ _)
      (Or.inl hrefs) ?_ hledger
    rw [update_self]
  unfold Heap.construct
  split
  · exact ⟨_, hall none 0 _ (h.ledger.setNull hown 0)⟩
  · unfold Heap.kalloc
    cases found with
    | false => exact ⟨_, hall none (Heap.pagesOf size) _ (h.ledger.setNull hown _)⟩
    | true => exact ⟨_, hall _ _ _ (h.ledger.kalloc hown (Heap.pagesOf size))⟩

theorem copyable_count {other : ObjPtr} (hcopy : s.Copyable other) (hother : s.objects other = some b) :
    ∃ c, b.refCount = some c ∧ s.count c ≠ 0xFFFFFFFF := by
  obtain ⟨c, hc, hmax⟩ := hcopy
  rw [refCount_of_object hother] at hc
  exact ⟨c, hc, hmax⟩

/-- A new object that shares the count of `other`. -/
theorem Inv.copy (h : Inv s own) (hother : s.objects other = some b)
    (hthis : s.refCount this = none) (hc : b.refCount = some c) (hmax : s.count c ≠ 0xFFFFFFFF) :
    Inv ((s.setObject this (some b)).setCount c (s.count c + 1)) own := by
  have hlt := (h.count_pos ((refCount_of_object hother).trans hc)).1
  refine h.attach hthis hc rfl ?_ hmax (fun _ _ => rfl) (Or.inr rfl)
    (h.agree.shared other b c hother hc) h.ledger
  exact fun a => count_setCount (s := s.setObject this (some b)) hlt _ a

/-- An object that goes leaves its count below the maximum, and a count that was below it
stays there. -/
theorem Inv.count_ne_max (h : Inv s own) (ht : Inv t own')
    (hmap : t.refCount = update s.refCount this none)
    (hfits : s.count c ≠ 0xFFFFFFFF ∨ s.refCount this = some c) : t.count c ≠ 0xFFFFFFFF := by
  intro hmax
  have hcount := ht.count c
  rw [hmap, hmax] at hcount
  have hnat : (0xFFFFFFFF : BitVec 32).toNat = 4294967295 := rfl
  have hbound := (s.count c).isLt
  rw [h.count c] at hbound
  cases hold : s.refCount this with
  | none =>
      -- nothing changed, so the count was at the maximum before
      rw [update_none_of_none hold, ← h.count c] at hcount
      rcases hfits with hfits | hfits
      · exact hfits (BitVec.eq_of_toNat_eq hcount.symm)
      · rw [hold] at hfits
        cases hfits
  | some a =>
      have hrefs := refs_set_none h.finite hold c
      by_cases hca : c = a
      · -- there was one object more before, and it was counted
        rw [if_pos hca] at hrefs
        omega
      · rw [if_neg hca, Nat.add_zero, ← hcount, ← h.count c] at hrefs
        rcases hfits with hfits | hfits
        · exact hfits (BitVec.eq_of_toNat_eq hrefs)
        · rw [hold] at hfits
          exact hca (Option.some.inj hfits).symm

/-- **Copy assignment to another object.** -/
theorem Inv.assignOther (h : Inv s own) {old : Buffer} (hthis : s.objects this = some old)
    (hother : s.objects other = some b) (hne : this ≠ other) (hc : b.refCount = some c)
    (hfits : s.count c ≠ 0xFFFFFFFF ∨ s.refCount this = some c) :
    ∃ own', Inv (((s.release old).setObject this (some b)).setCount c
      ((s.release old).count c + 1)) own' := by
  obtain ⟨own', hinv⟩ := h.letGo hthis empty_none
  have hkept : ((s.release old).setObject this none).objects other = some b := by
    show update (s.release old).objects this none other = some b
    rw [update_of_ne (Ne.symm hne), release_objects]
    exact hother
  have hmap : ((s.release old).setObject this none).refCount
      = update s.refCount this none := by
    rw [refCount_setObject]
    unfold Heap.refCount
    rw [release_objects]
    rfl
  have hgone : ((s.release old).setObject this none).refCount this = none := by
    rw [hmap, update_self]
  have hcopy := hinv.copy hkept hgone hc (h.count_ne_max hinv hmap hfits)
  refine ⟨own', ?_⟩
  have hidem : (((s.release old).setObject this none).setObject this (some b))
      = (s.release old).setObject this (some b) := by
    unfold Heap.setObject
    rw [update_idem]
  rw [hidem] at hcopy
  exact hcopy

/-- **A buffer assigned to itself** is left as it is, when that frees nothing. -/
theorem Inv.selfAssign (h : Inv s own) (hthis : s.objects this = some b) (hc : b.refCount = some c)
    (hkeep : b.rawPtr = none ∨ s.count c ≠ 1) :
    ((s.release b).setObject this (some b)).setCount c ((s.release b).count c + 1) = s := by
  have hlt := (h.count_pos ((refCount_of_object hthis).trans hc)).1
  have hrelease : s.release b = s.setCount c (s.count c - 1) := by
    unfold Heap.release
    rw [hc]
    dsimp only
    rcases hkeep with hnull | hshared
    · rw [hnull]
    · split
      · rfl
      · rw [if_neg hshared]
  have hback : (s.setCount c (s.count c - 1)).count c + 1 = s.count c := by
    rw [count_setCount hlt, if_pos rfl, BitVec.sub_add_cancel]
  have hsame : s.counts.set c (s.count c) = s.counts := by
    unfold Heap.count
    rw [List.getD_eq_getElem?_getD, List.getElem?_eq_getElem hlt]
    exact List.set_getElem_self hlt
  rw [hrelease, hback]
  show Heap.mk (update s.objects this (some b)) ((s.counts.set c _).set c _) s.kallocs s.frees = s
  rw [← hthis, update_eq_self, List.set_set, hsame]

theorem Inv.copyAssign (h : Inv s own) {old : Buffer} (hthis : s.objects this = some old)
    (hother : s.objects other = some b)
    (hmeets : if this = other then s.refCount this ≠ none ∧ (s.rawPtr this ≠ none → ¬ s.Unshared this)
      else s.Copyable other ∨ (s.refCount other ≠ none ∧ s.refCount this = s.refCount other))
    {s' : Heap} (hassign : s.copyAssign this other = some s') : ∃ own', Inv s' own' := by
  unfold Heap.copyAssign at hassign
  rw [hthis, hother] at hassign
  dsimp only at hassign
  by_cases hne : this = other
  · subst hne
    rw [hthis] at hother
    cases hother
    rw [if_pos rfl, refCount_of_object hthis, rawPtr_of_object hthis] at hmeets
    obtain ⟨c, hc⟩ := Option.ne_none_iff_exists'.mp hmeets.1
    rw [hc] at hassign
    cases hassign
    have hkeep : b.rawPtr = none ∨ s.count c ≠ 1 := by
      by_cases hnull : b.rawPtr = none
      · exact Or.inl hnull
      · exact Or.inr fun hone => hmeets.2 hnull ⟨c, (refCount_of_object hthis).trans hc, hone⟩
    have hsame := h.selfAssign hthis hc hkeep
    exact ⟨own, by rw [← hsame] at h; exact h⟩
  · rw [if_neg hne] at hmeets
    -- both ways to meet the condition give a count with room for this object
    obtain ⟨c, hc, hfits⟩ : ∃ c, b.refCount = some c
        ∧ (s.count c ≠ 0xFFFFFFFF ∨ s.refCount this = some c) := by
      rcases hmeets with hcopy | ⟨hsome, hsame⟩
      · obtain ⟨c, hc, hmax⟩ := copyable_count hcopy hother
        exact ⟨c, hc, Or.inl hmax⟩
      · obtain ⟨c, hc⟩ := Option.ne_none_iff_exists'.mp hsome
        exact ⟨c, (refCount_of_object hother).symm.trans hc, Or.inr (hsame.trans hc)⟩
    rw [hc] at hassign
    cases hassign
    exact h.assignOther hthis hother hne hc hfits

/-- **Move assignment**, also of an object to itself. -/
theorem Inv.moveAssign (h : Inv s own) {old : Buffer} (hthis : s.objects this = some old)
    (hother : s.objects other = some b) :
    ∃ own', Inv (((s.release old).setObject this (some b)).setObject other
      (some (Heap.Buffer.movedFrom b))) own' := by
  by_cases hne : this = other
  · subst hne
    rw [hthis] at hother
    cases hother
    obtain ⟨own', hinv⟩ := h.letGo hthis (empty_movedFrom b)
    refine ⟨own', ?_⟩
    unfold Heap.setObject at hinv ⊢
    rw [update_idem]
    exact hinv
  · obtain ⟨own', hinv⟩ := h.letGo hthis empty_none
    refine ⟨own', ?_⟩
    have hkept : ((s.release old).setObject this none).objects other = some b := by
      show update (s.release old).objects this none other = some b
      rw [update_of_ne (Ne.symm hne), release_objects]
      exact hother
    have hgone : ((s.release old).setObject this none).refCount this = none := by
      rw [refCount_setObject, update_self]
      rfl
    have hmove := hinv.move hkept hne hgone
    unfold Heap.setObject at hmove ⊢
    rw [update_idem] at hmove
    exact hmove

/-- The object of an unshared buffer. -/
theorem unshared_count (hunshared : s.Unshared this) (hthis : s.objects this = some b) :
    ∃ c, b.refCount = some c ∧ s.count c = 1 := by
  obtain ⟨c, hc, hone⟩ := hunshared
  rw [refCount_of_object hthis] at hc
  exact ⟨c, hc, hone⟩

/-- The ledger after the range of a count, if any, was freed. -/
theorem Inv.ledger_free (h : Inv s own) (hthis : s.objects this = some b) (hc : b.refCount = some c)
    (n : Nat) : Ledger s.kallocs
      (match b.rawPtr with | none => s.frees | some r => s.frees ++ [(r, b.pageSize)])
      (update own c (none, n)) := by
  have hown := h.agree.shared this b c hthis hc
  cases hr : b.rawPtr with
  | none => exact h.ledger.setNull (by rw [← hown]; exact hr) n
  | some r =>
      have hfree := h.ledger.free (c := c) (r := r) (by rw [← hown]; exact hr) n
      rw [← hown] at hfree
      exact hfree

theorem Inv.clear (h : Inv s own) (hthis : s.objects this = some b)
    (hmeets : s.rawPtr this = none ∨ s.Unshared this) {s' : Heap} (hclear : s.clear this = some s') :
    ∃ own', Inv s' own' := by
  unfold Heap.clear at hclear
  rw [hthis] at hclear
  dsimp only at hclear
  cases hr : b.rawPtr with
  | none =>
      rw [hr] at hclear
      cases hclear
      exact ⟨own, h⟩
  | some r =>
      rw [hr] at hclear
      cases hclear
      have hunshared : s.Unshared this := by
        rcases hmeets with hnull | hunshared
        · rw [rawPtr_of_object hthis, hr] at hnull
          cases hnull
        · exact hunshared
      obtain ⟨c, hc, hone⟩ := unshared_count hunshared hthis
      have hledger := h.ledger_free hthis hc 0
      rw [hr] at hledger
      exact ⟨_, h.replace hthis hc hone { b with rawPtr := none, pageSize := 0 } hc rfl rfl
        hledger⟩

theorem Inv.resize (h : Inv s own) (hthis : s.objects this = some b) (hunshared : s.Unshared this)
    {newSize : Nat} {found : Bool} {s' : Heap} (hresize : s.resize this newSize found = some s') :
    ∃ own', Inv s' own' := by
  obtain ⟨c, hc, hone⟩ := unshared_count hunshared hthis
  -- the old range is freed, and the new one entered
  have hfreed := h.ledger_free hthis hc (Heap.pagesOf newSize)
  have hnull : (update own c (none, Heap.pagesOf newSize) c).1 = none := by
    rw [update_self]
  have hledger : Ledger (s.kalloc (Heap.pagesOf newSize) found).1.kallocs
      (match b.rawPtr with | none => s.frees | some r => s.frees ++ [(r, b.pageSize)])
      (update own c ((s.kalloc (Heap.pagesOf newSize) found).2, Heap.pagesOf newSize)) := by
    cases found with
    | false => exact hfreed
    | true =>
        have hnew := hfreed.kalloc hnull (Heap.pagesOf newSize)
        rw [update_idem] at hnew
        exact hnew
  have hobjects : (s.kalloc (Heap.pagesOf newSize) found).1.objects = s.objects := by
    cases found <;> rfl
  have hcounts : (s.kalloc (Heap.pagesOf newSize) found).1.counts = s.counts := by
    cases found <;> rfl
  have hfrees : (s.kalloc (Heap.pagesOf newSize) found).1.frees = s.frees := by
    cases found <;> rfl
  unfold Heap.resize at hresize
  rw [hthis] at hresize
  dsimp only at hresize
  have hreplace : ∀ t : Heap, t.objects = update s.objects this
        (some { b with rawPtr := (s.kalloc (Heap.pagesOf newSize) found).2,
                       pageSize := Heap.pagesOf newSize }) →
      t.counts = s.counts → t.kallocs = (s.kalloc (Heap.pagesOf newSize) found).1.kallocs →
      t.frees = (match b.rawPtr with | none => s.frees | some r => s.frees ++ [(r, b.pageSize)]) →
      ∃ own', Inv t own' := by
    intro t ht htcounts htkallocs htfrees
    rw [← htkallocs, ← htfrees] at hledger
    exact ⟨_, h.replace hthis hc hone { b with rawPtr := (s.kalloc (Heap.pagesOf newSize) found).2,
                                               pageSize := Heap.pagesOf newSize }
      hc ht htcounts hledger⟩
  cases hr : b.rawPtr with
  | none =>
      rw [hr] at hresize
      cases hresize
      refine hreplace _ ?_ hcounts rfl ?_
      · show update _ this _ = _
        rw [hobjects]
      · rw [hr]
        exact hfrees
  | some r =>
      rw [hr] at hresize
      dsimp only at hresize
      rcases ite_eq_iff.mp hresize with ⟨_, hfault⟩ | ⟨_, hdone⟩
      · cases hfault
      · cases hdone
        refine hreplace _ ?_ hcounts rfl ?_
        · show update _ this _ = _
          rw [hobjects]
        · rw [hr]
          show _ ++ _ = _
          rw [← hfrees]
          rfl

/-- **Step lemma**: a step that meets the condition keeps the counts right and the
ledger in order. -/
theorem Inv.exec {e : Event} {s' : Heap} (h : Inv s own) (hproper : Proper s e) (hmeets : Meets s e)
    (hexec : exec s e = some s') : ∃ own', Inv s' own' := by
  cases e with
  | construct this size found =>
      cases hexec
      exact h.construct hproper size found
  | copyConstruct this other =>
      obtain ⟨b, hb⟩ := Option.ne_none_iff_exists'.mp hproper.2
      obtain ⟨c, hc, hmax⟩ := copyable_count hmeets hb
      have hexec : s.copyConstruct this other = some s' := hexec
      unfold Heap.copyConstruct at hexec
      rw [hb] at hexec
      dsimp only at hexec
      rw [hc] at hexec
      cases hexec
      exact ⟨own, h.copy hb (refCount_of_free hproper.1) hc hmax⟩
  | moveConstruct this other =>
      obtain ⟨b, hb⟩ := Option.ne_none_iff_exists'.mp hproper.2
      have hexec : s.moveConstruct this other = some s' := hexec
      unfold Heap.moveConstruct at hexec
      rw [hb] at hexec
      cases hexec
      have hne : this ≠ other := by
        rintro rfl
        exact hproper.2 hproper.1
      exact ⟨own, h.move hb hne (refCount_of_free hproper.1)⟩
  | copyAssign this other =>
      obtain ⟨old, hold⟩ := Option.ne_none_iff_exists'.mp hproper.1
      obtain ⟨b, hb⟩ := Option.ne_none_iff_exists'.mp hproper.2
      exact h.copyAssign hold hb hmeets hexec
  | moveAssign this other =>
      obtain ⟨old, hold⟩ := Option.ne_none_iff_exists'.mp hproper.1
      obtain ⟨b, hb⟩ := Option.ne_none_iff_exists'.mp hproper.2
      have hexec : s.moveAssign this other = some s' := hexec
      unfold Heap.moveAssign at hexec
      rw [hold, hb] at hexec
      cases hexec
      exact h.moveAssign hold hb
  | resize this newSize found =>
      obtain ⟨b, hb⟩ := Option.ne_none_iff_exists'.mp hproper
      exact h.resize hb hmeets hexec
  | clear this =>
      obtain ⟨b, hb⟩ := Option.ne_none_iff_exists'.mp hproper
      exact h.clear hb hmeets hexec
  | destroy this =>
      obtain ⟨b, hb⟩ := Option.ne_none_iff_exists'.mp hproper
      have hexec : s.destroy this = some s' := hexec
      unfold Heap.destroy at hexec
      rw [hb] at hexec
      cases hexec
      exact h.letGo hb empty_none

end Steps

/-! ## §4. Runs. -/

/-- Proper steps, in the form runs take them. -/
def ProperStep (_ : List Event) (s : Heap) (e : Event) : Prop := Proper s e

/-- Proper steps that meet the condition. -/
def MeetsStep (_ : List Event) (s : Heap) (e : Event) : Prop := Proper s e ∧ Meets s e

/-- **`KBuffer` objects own their ranges**: every range is freed at most once, with its
length; not while an object has it; and it is, when no object has it any more. -/
def Heap.Owned (s : Heap) : Prop :=
  (∀ r, (s.frees.map Prod.fst).count r ≤ 1)
    ∧ (∀ r n, (r, n) ∈ s.frees → s.kallocs[r]? = some n ∧ ∀ i, s.rawPtr i ≠ some r)
    ∧ ∀ r, r < s.kallocs.length → (∀ i, s.rawPtr i ≠ some r) → r ∈ s.frees.map Prod.fst

theorem Inv.rawPtr_own {s : Heap} {own : Owners} (h : Inv s own) {i : ObjPtr} {r : Range}
    (hr : s.rawPtr i = some r) : ∃ c, (own c).1 = some r := by
  obtain ⟨b, hb, hbr⟩ := Option.bind_eq_some_iff.mp hr
  cases hc : b.refCount with
  | none =>
      rw [h.agree.null i b hb hc] at hbr
      cases hbr
  | some c =>
      refine ⟨c, ?_⟩
      rw [← h.agree.shared i b c hb hc]
      exact hbr

theorem Inv.owned {s : Heap} {own : Owners} (h : Inv s own) : s.Owned := by
  refine ⟨fun r => List.nodup_iff_count_le_one.mp h.ledger.once r, ?_, ?_⟩
  · intro r n hr
    refine ⟨h.ledger.freed r n hr, fun i hi => ?_⟩
    obtain ⟨c, hc⟩ := h.rawPtr_own hi
    exact (h.ledger.owned c r hc).2 (List.mem_map.mpr ⟨(r, n), hr, rfl⟩)
  · intro r hr hnobody
    rcases h.ledger.kept r hr with hfree | ⟨c, hc⟩
    · exact hfree
    · -- a count that owns something is shared by an object
      exfalso
      have hused : refs s.refCount c ≠ 0 := by
        intro hzero
        rw [h.unused c hzero] at hc
        cases hc
      obtain ⟨i, hi⟩ : ∃ i, s.refCount i = some c := by
        by_contra hno
        exact hused (refs_eq_zero fun i hi => hno ⟨i, hi⟩)
      obtain ⟨b, hb, hbc⟩ := Option.bind_eq_some_iff.mp hi
      refine hnobody i ?_
      rw [rawPtr_of_object hb]
      have hown := h.agree.shared i b c hb hbc
      rw [← hown] at hc
      exact hc

/-- **Every run whose steps meet the condition** keeps the ranges owned. -/
theorem kbuffer_ownership {hist : List Event} {s : Heap}
    (hrun : GuardedRun Step MeetsStep Heap.init hist s) : s.Owned := by
  have hinv : ∃ own, Inv s own := by
    refine hrun.historyInvariant (fun _ s => ∃ own, Inv s own) ⟨_, Inv.init⟩ ?_
    intro _ s e s' ⟨own, h⟩ ⟨hproper, hmeets⟩ hst
    exact h.exec hproper hmeets hst
  obtain ⟨own, h⟩ := hinv
  exact h.owned

/-- A buffer is copied, the first goes, the second is resized and goes too. -/
def copiedBuffer : List Event :=
  [.destroy 2, .resize 2 5000 true, .destroy 1, .copyConstruct 2 1, .construct 1 4096 true]

theorem kbuffer_ownership_copy :
    ∃ s, GuardedRun Step MeetsStep Heap.init copiedBuffer s ∧ s.frees = [(0, 1), (1, 2)] ∧ s.Owned := by
  obtain ⟨s, hrun, hfrees⟩ : ∃ s, GuardedRun Step MeetsStep Heap.init copiedBuffer s
      ∧ s.frees = [(0, 1), (1, 2)] := by
    refine ⟨_, .step (.step (.step (.step (.step .init ?_ rfl) ?_ rfl) ?_ rfl) ?_ rfl) ?_ rfl, rfl⟩
    · exact ⟨rfl, trivial⟩
    · exact ⟨⟨rfl, Option.some_ne_none _⟩, 0, rfl, by decide⟩
    · exact ⟨Option.some_ne_none _, trivial⟩
    · exact ⟨Option.some_ne_none _, 0, rfl, by decide⟩
    · exact ⟨Option.some_ne_none _, trivial⟩
  exact ⟨s, hrun, hfrees, kbuffer_ownership hrun⟩

/-- A buffer is copied and then cleared: its range is freed while the copy has it, and
again with the copy. -/
def clearedBuffer : List Event :=
  [.destroy 2, .destroy 1, .clear 1, .copyConstruct 2 1, .construct 1 4096 true]

theorem cleared_copy_frees_twice :
    ¬ ∀ hist s, GuardedRun Step ProperStep Heap.init hist s → s.Owned := by
  intro hall
  obtain ⟨s, hrun, hfrees⟩ : ∃ s, GuardedRun Step ProperStep Heap.init clearedBuffer s
      ∧ s.frees = [(0, 1), (0, 1)] := by
    refine ⟨_, .step (.step (.step (.step (.step .init ?_ rfl) ?_ rfl) ?_ rfl) ?_ rfl) ?_ rfl, rfl⟩
    · exact rfl
    · exact ⟨rfl, Option.some_ne_none _⟩
    · exact Option.some_ne_none _
    · exact Option.some_ne_none _
    · exact Option.some_ne_none _
  have htwice := (hall _ s hrun).1 0
  rw [hfrees] at htwice
  exact absurd htwice (by decide)

end MierOS.Memory.KBuffer
