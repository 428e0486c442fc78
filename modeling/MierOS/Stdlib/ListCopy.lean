/-
  MierOS.Stdlib.ListCopy
  **COPIES of `std::List`**: the copy constructor and the copy assignment of
  `kernel/std/include/list.hpp`, in a memory that holds many lists.

  Both link a new entry for every entry of the source behind `last`, and `last` is
  `&head` when the loop starts.  Nothing moves it, so every new entry is linked in front
  of those before it.  An assignment from the list itself frees the entries first.

  Main results: `ListMemory.list`, `copyLoop_spec`, `list_copy_iff`.
-/
import MierOS.Stdlib.List

namespace MierOS.Stdlib

open Lib Lib.Links
open Function (update update_of_ne update_self)

/-! ## §1. A memory with many lists. -/

/-- A pointer: a member of the list object `list`, or an allocated entry. -/
inductive ListPtr where
  | null
  | head (list : Nat)
  | tail (list : Nat)
  | entry (address : Nat)
  deriving Repr, DecidableEq

/-- What a pointer of one list is in the memory, and back. -/
def toListPtr (list : Nat) : NodePtr → ListPtr
  | .null => .null
  | .head => .head list
  | .tail => .tail list
  | .entry address => .entry address

def ofListPtr (list : Nat) : ListPtr → NodePtr
  | .null => .null
  | .head list' => if list' = list then .head else .null
  | .tail list' => if list' = list then .tail else .null
  | .entry address => .entry address

/-- The links of all entries and list objects, the values, and the `length` of every
object. -/
structure ListMemory (T : Type) where
  next : ListPtr → ListPtr
  prev : ListPtr → ListPtr
  value : ListPtr → T
  length : Nat → UInt64

namespace ListMemory

variable {T : Type}

/-- The list object `i`. -/
def list (m : ListMemory T) (i : Nat) : StdList T where
  next p := ofListPtr i (m.next (toListPtr i p))
  prev p := ofListPtr i (m.prev (toListPtr i p))
  value p := m.value (toListPtr i p)
  length := m.length i

/-- `entry->next = p`. -/
def setNext (m : ListMemory T) (entry p : ListPtr) : ListMemory T :=
  { m with next := update m.next entry p }

/-- `entry->prev = p`. -/
def setPrev (m : ListMemory T) (entry p : ListPtr) : ListMemory T :=
  { m with prev := update m.prev entry p }

/-- The five assignments with which both operations make `this` empty. -/
def makeEmpty (m : ListMemory T) (this : Nat) (length : UInt64) : ListMemory T :=
  let m := m.setPrev (.head this) .null
  let m := m.setNext (.head this) (.tail this)
  let m := m.setPrev (.tail this) (.head this)
  let m := m.setNext (.tail this) .null
  { m with length := update m.length this length }

/-- The body of the copy loop: a new entry with this value, linked behind `last`. -/
def linkBehind (m : ListMemory T) (last : ListPtr) (value : T) (address : Nat) : ListMemory T :=
  let e := ListPtr.entry address
  let m := { m with value := update m.value e value }
  let m := m.setNext e (m.next last)
  let m := m.setPrev e last
  let m := m.setPrev (m.next last) e
  m.setNext last e

/-- The copy loop from `entry` on, the `k`-th allocation being the next one. -/
def copyLoop (alloc : Nat → Nat) (last : ListPtr) (other : Nat) :
    Nat → Nat → ListPtr → ListMemory T → Option (ListMemory T)
  | 0, _, _, _ => none
  | fuel + 1, k, entry, m =>
      if entry = .tail other then some m
      else
        let m := m.linkBehind last (m.value entry) (alloc k)
        copyLoop alloc last other fuel (k + 1) (m.next entry) m

/-- `List(const List<T>& other)` of the object `this`. -/
def copyConstruct (m : ListMemory T) (this other : Nat) (alloc : Nat → Nat) (fuel : Nat) :
    Option (ListMemory T) :=
  let m := m.makeEmpty this (m.length other)
  copyLoop alloc (.head this) other fuel 0 (m.next (.head other)) m

/-- The loop of `operator=` that frees the entries of `this` from `e` on. -/
def freeLoop (m : ListMemory T) (this : Nat) : Nat → ListPtr → Option Unit
  | 0, _ => none
  | fuel + 1, e => if e = .tail this then some () else freeLoop m this fuel (m.next e)

/-- `operator=(const List<T>& other)`. -/
def copyAssign (m : ListMemory T) (this other : Nat) (alloc : Nat → Nat) (fuel : Nat) :
    Option (ListMemory T) :=
  (m.freeLoop this fuel (m.next (.head this))).bind fun _ =>
    let m := m.makeEmpty this (m.length other)
    copyLoop alloc (.head this) other fuel 0 (m.next (.head other)) m

/-! ## §2. One list of the memory. -/

variable {m : ListMemory T} {i this other : Nat} {p q : NodePtr} {l a b : List NodePtr}

@[simp] theorem ofListPtr_toListPtr (i : Nat) (p : NodePtr) : ofListPtr i (toListPtr i p) = p := by
  cases p <;> simp [ofListPtr, toListPtr]

theorem toListPtr_inj : toListPtr i p = toListPtr i q ↔ p = q := by
  constructor
  · intro h
    have hback := congrArg (ofListPtr i) h
    simpa using hback
  · intro h
    rw [h]

/-- Only the null pointer and members of other lists are null in a list. -/
theorem eq_toListPtr {x : ListPtr} (h : ofListPtr i x = p) (hp : p ≠ .null) :
    x = toListPtr i p := by
  subst h
  cases x with
  | null => exact absurd rfl hp
  | entry address => rfl
  | head j =>
      by_cases hj : j = i
      · simp [ofListPtr, toListPtr, hj]
      · exact absurd (if_neg hj) hp
  | tail j =>
      by_cases hj : j = i
      · simp [ofListPtr, toListPtr, hj]
      · exact absurd (if_neg hj) hp

theorem next_of_list (h : (m.list i).next p = q) (hq : q ≠ .null) :
    m.next (toListPtr i p) = toListPtr i q := eq_toListPtr h hq

/-- A write to a pointer of the list. -/
theorem ofListPtr_update (f : ListPtr → ListPtr) (i : Nat) (p q : NodePtr) :
    (fun x => ofListPtr i (update f (toListPtr i p) (toListPtr i q) (toListPtr i x)))
      = update (fun x => ofListPtr i (f (toListPtr i x))) p q := by
  funext x
  by_cases hx : x = p
  · subst hx
    simp
  · rw [update_of_ne (fun h => hx (toListPtr_inj.mp h)), update_of_ne hx]

theorem list_setNext (m : ListMemory T) (i : Nat) (p q : NodePtr) :
    (m.setNext (toListPtr i p) (toListPtr i q)).list i = (m.list i).setNext p q := by
  simp only [list, setNext, StdList.setNext, ofListPtr_update]

theorem list_setPrev (m : ListMemory T) (i : Nat) (p q : NodePtr) :
    (m.setPrev (toListPtr i p) (toListPtr i q)).list i = (m.list i).setPrev p q := by
  simp only [list, setPrev, StdList.setPrev, ofListPtr_update]

/-- Two lists share no pointers but those to entries. -/
theorem toListPtr_ne (hi : this ≠ other) (h : toListPtr this p = toListPtr other q) : p = q := by
  cases p <;> cases q <;> simp_all [toListPtr]

theorem entry_of_toListPtr (hi : this ≠ other) (h : toListPtr this p = toListPtr other q)
    (hp : p ≠ .null) : ∃ address, p = .entry address := by
  cases p <;> cases q <;> simp_all [toListPtr]

theorem linked_makeEmpty (m : ListMemory T) (this : Nat) (length : UInt64) :
    ((m.makeEmpty this length).list this).Linked [] := by
  refine ⟨TwoWay.nil (by decide) ?_ ?_, List.not_mem_nil, ?_⟩
  · simp [list, makeEmpty, setNext, setPrev, toListPtr, ofListPtr]
  · simp [list, makeEmpty, setNext, setPrev, toListPtr, ofListPtr]
  · simp [list, makeEmpty, setNext, setPrev, toListPtr, ofListPtr]

/-- Making a list empty leaves the others alone. -/
theorem list_makeEmpty (m : ListMemory T) (hi : this ≠ other) (length : UInt64) :
    (m.makeEmpty this length).list other = m.list other := by
  have hhead : ∀ x, toListPtr other x ≠ .head this := fun x h => by
    cases x <;> simp_all [toListPtr]
  have htail : ∀ x, toListPtr other x ≠ .tail this := fun x h => by
    cases x <;> simp_all [toListPtr]
  simp [list, makeEmpty, setNext, setPrev, hhead, htail, hi.symm]

/-! ## §3. The copy loop. -/

/-- The source as before: its links, its values and its counter. -/
structure Unchanged (s s' : StdList T) (l : List NodePtr) : Prop where
  links : s'.Linked l
  value : ∀ x ∈ l, s'.value x = s.value x
  length : s'.length = s.length

theorem Unchanged.trans {s s' s'' : StdList T} (h : Unchanged s s' l) (h' : Unchanged s' s'' l) :
    Unchanged s s'' l :=
  ⟨h'.links, fun x hx => (h'.value x hx).trans (h.value x hx), h'.length.trans h.length⟩

theorem linkBehind_eq {last x : ListPtr} (hx : m.next last = x) {address : Nat}
    (hne : last ≠ .entry address) (value : T) :
    m.linkBehind last value address =
      (((({ m with value := update m.value (.entry address) value } : ListMemory T).setNext
        (.entry address) x).setPrev (.entry address) last).setPrev x (.entry address)).setNext last
          (.entry address) := by
  simp only [linkBehind, setNext, setPrev, hx, update_of_ne hne]

/-- The first entry of a list, and `tail` of an empty one. -/
theorem next_head (h : (m.list this).Linked l) :
    m.next (.head this) = toListPtr this (l.headD .tail) := by
  refine next_of_list (p := .head) (h.begin_eq (a := []) rfl) ?_
  cases l with
  | nil => simp
  | cons x l => exact fun hx => h.null_notMem (hx ▸ List.mem_cons_self)

/-- The writes behind `&head`, as writes to the list. -/
theorem list_linkBehind (h : (m.list this).Linked l) (address : Nat) (value : T) :
    (m.linkBehind (.head this) value address).list this =
      ((((({ m with value := update m.value (.entry address) value } : ListMemory T).list
        this).setNext (.entry address) (l.headD .tail)).setPrev (.entry address) .head).setPrev
          (l.headD .tail) (.entry address)).setNext .head (.entry address) := by
  rw [linkBehind_eq (next_head h) (by simp)]
  show ListMemory.list ((((ListMemory.setNext _ (toListPtr this (.entry address)) _).setPrev
    (toListPtr this (.entry address)) (toListPtr this .head)).setPrev _
      (toListPtr this (.entry address))).setNext (toListPtr this .head)
        (toListPtr this (.entry address))) this = _
  rw [list_setNext, list_setPrev, list_setPrev, list_setNext]

/-- **A new entry behind `&head` is the first one.** -/
theorem linked_linkBehind (h : (m.list this).Linked l) {address : Nat} (hnew : .entry address ∉ l)
    (value : T) :
    ((m.linkBehind (.head this) value address).list this).Linked (.entry address :: l) := by
  have hlist := list_linkBehind h address value
  exact h.link (a := []) (h.fresh hnew) (by simp) (congrArg StdList.next hlist)
    (congrArg StdList.prev hlist)

/-- A pointer of another list is not one the loop writes to. -/
theorem toListPtr_notWritten (hi : this ≠ other) (h : (m.list this).Linked l) {address : Nat}
    (hp : p ≠ .null) (hpnew : p ≠ .entry address) (hpl : p ∉ l) :
    toListPtr other p ≠ .entry address ∧ toListPtr other p ≠ .head this
      ∧ toListPtr other p ≠ m.next (.head this) := by
  refine ⟨fun heq => hpnew (toListPtr_inj (i := other).mp heq), fun heq => ?_, fun heq => ?_⟩
  · obtain ⟨address, rfl⟩ := entry_of_toListPtr hi.symm (q := .head) heq hp
    simp [toListPtr] at heq
  · rw [next_head h] at heq
    obtain ⟨address, rfl⟩ := entry_of_toListPtr hi.symm heq hp
    have hhead := toListPtr_ne hi.symm heq
    cases l with
    | nil => simp at hhead
    | cons x l => exact hpl (by simp [hhead])

/-- **The source is only read.** -/
theorem unchanged_linkBehind (hi : this ≠ other) (hsrc : (m.list other).Linked l)
    {nodes : List NodePtr} (h : (m.list this).Linked nodes) {address : Nat}
    (hnew : .entry address ∉ l) (hapart : ∀ x ∈ nodes, x ∉ l ∧ x ≠ .head ∧ x ≠ .tail) (value : T) :
    Unchanged (m.list other) ((m.linkBehind (.head this) value address).list other) l := by
  have heq := linkBehind_eq (next_head h)
    (show ListPtr.head this ≠ .entry address by simp) value
  have hkept : ∀ x ∈ NodePtr.head :: .tail :: l, toListPtr other x ≠ .entry address
      ∧ toListPtr other x ≠ .head this ∧ toListPtr other x ≠ m.next (.head this) := by
    intro x hx
    refine toListPtr_notWritten hi h ?_ ?_ ?_
    · rintro rfl
      exact hsrc.null_notMem (by simpa using hx)
    · rintro rfl
      exact hnew (by simpa using hx)
    · intro hmem
      have hx' := hapart x hmem
      simp_all
  rw [next_head h] at hkept
  rw [heq]
  refine ⟨hsrc.frame (fun x hx => ?_) (fun x hx => ?_), fun x hx => ?_, rfl⟩
  · obtain ⟨hentry, hhead, -⟩ := hkept x hx
    exact congrArg (ofListPtr other)
      ((update_of_ne hhead _ _).trans (update_of_ne hentry _ _))
  · obtain ⟨hentry, -, hfirst⟩ := hkept x hx
    exact congrArg (ofListPtr other)
      ((update_of_ne hfirst _ _).trans (update_of_ne hentry _ _))
  · obtain ⟨hentry, -, -⟩ := hkept x (by simp [hx])
    exact update_of_ne hentry _ _

/-- The entries the loop has made: the first `k` allocations. -/
def Allocated (alloc : Nat → Nat) (k : Nat) (nodes : List NodePtr) : Prop :=
  ∀ x ∈ nodes, ∃ j, j < k ∧ x = .entry (alloc j)

theorem Allocated.notMem {alloc : Nat → Nat} (hinj : Function.Injective alloc) {k : Nat}
    {nodes : List NodePtr} (h : Allocated alloc k nodes) : .entry (alloc k) ∉ nodes := by
  intro hmem
  obtain ⟨j, hj, heq⟩ := h _ hmem
  have hjk := hinj (NodePtr.entry.inj heq)
  omega

theorem Allocated.cons {alloc : Nat → Nat} {k : Nat} {nodes : List NodePtr}
    (h : Allocated alloc k nodes) : Allocated alloc (k + 1) (.entry (alloc k) :: nodes) := by
  intro y hy
  rcases List.mem_cons.mp hy with rfl | hy
  · exact ⟨k, Nat.lt_succ_self k, rfl⟩
  · obtain ⟨j, hj, heq⟩ := h y hy
    exact ⟨j, by omega, heq⟩

/-- One round: the value of the entry goes into a new one behind `head`. -/
theorem copyLoop_round {alloc : Nat → Nat} {x : NodePtr} {k : Nat}
    (hsrc : (m.list other).Linked (a ++ x :: b))
    (hkeep : Unchanged (m.list other)
      ((m.linkBehind (.head this) (m.value (toListPtr other x)) (alloc k)).list other) (a ++ x :: b))
    (fuel : Nat) :
    copyLoop alloc (.head this) other (fuel + 1) k (toListPtr other x) m
      = copyLoop alloc (.head this) other fuel (k + 1) (toListPtr other (b.headD .tail))
        (m.linkBehind (.head this) (m.value (toListPtr other x)) (alloc k)) := by
  have hnext : (m.linkBehind (.head this) (m.value (toListPtr other x)) (alloc k)).next
      (toListPtr other x) = toListPtr other (b.headD .tail) := by
    refine next_of_list hkeep.links.links.next_of_mem ?_
    cases b with
    | nil => simp
    | cons y b => exact fun heq => hsrc.null_notMem (by simp [show y = .null from heq])
  have hne : toListPtr other x ≠ .tail other := fun heq =>
    hsrc.links.tail_notMem (by simp [show x = .tail from toListPtr_inj.mp heq])
  rw [← hnext]
  exact if_neg hne

/-- **THE COPY LOOP REVERSES**: it returns, the values of the remaining entries of the
source stand before those that were there, in reverse order, and the source is as it was. -/
theorem copyLoop_spec {alloc : Nat → Nat} (hi : this ≠ other) (hinj : Function.Injective alloc)
    (b : List NodePtr) : ∀ {m : ListMemory T} {k : Nat} {a nodes : List NodePtr},
    (m.list other).Linked (a ++ b) → (m.list this).Linked nodes →
    (∀ j, .entry (alloc j) ∉ a ++ b) → Allocated alloc k nodes →
    ∃ m' nodes', (∀ fuel, b.length < fuel →
        copyLoop alloc (.head this) other fuel k (toListPtr other (b.headD .tail)) m = some m')
      ∧ (m'.list this).Linked nodes'
      ∧ nodes'.map (m'.list this).value
          = (b.map (m.list other).value).reverse ++ nodes.map (m.list this).value
      ∧ Unchanged (m.list other) (m'.list other) (a ++ b) ∧ m'.length = m.length := by
  induction b with
  | nil =>
      intro m k a nodes hsrc h hfresh hnodes
      refine ⟨m, nodes, fun fuel hfuel => ?_, h, rfl, ⟨hsrc, fun _ _ => rfl, rfl⟩, rfl⟩
      obtain ⟨fuel, rfl⟩ := Nat.exists_eq_succ_of_ne_zero (Nat.ne_of_gt hfuel)
      exact if_pos rfl
  | cons x b ih =>
      intro m k a nodes hsrc h hfresh hnodes
      have hnew := hnodes.notMem hinj
      have hapart : ∀ y ∈ nodes, y ∉ a ++ x :: b ∧ y ≠ .head ∧ y ≠ .tail := fun y hy => by
        obtain ⟨j, -, rfl⟩ := hnodes y hy
        exact ⟨hfresh j, by simp, by simp⟩
      -- the new entry is neither in the source nor in what has been copied
      have hkeep := unchanged_linkBehind hi hsrc h (hfresh k) hapart (m.value (toListPtr other x))
      have hfront := linked_linkBehind h hnew (m.value (toListPtr other x))
      have hold : ∀ y ∈ nodes, ((m.linkBehind (.head this) (m.value (toListPtr other x))
          (alloc k)).list this).value y = (m.list this).value y := fun y hy =>
        update_of_ne (fun heq => hnew ((toListPtr_inj (i := this)
          (q := .entry (alloc k))).mp heq ▸ hy)) _ _
      obtain ⟨m', nodes', hloop, hlinked, hvalues, hsame, hlength⟩ := ih (k := k + 1)
        (a := a ++ [x]) (by simpa using hkeep.links) hfront (by simpa using hfresh) hnodes.cons
      refine ⟨m', nodes', fun fuel hfuel => ?_, hlinked, ?_, ?_, hlength⟩
      · obtain ⟨fuel, rfl⟩ := Nat.exists_eq_succ_of_ne_zero (Nat.ne_of_gt (Nat.zero_lt_of_lt hfuel))
        exact (copyLoop_round hsrc hkeep fuel).trans (hloop fuel (by simpa using hfuel))
      · -- the values of the entries still to be copied, of the new one, and of those before it
        have hrest : b.map ((m.linkBehind (.head this) (m.value (toListPtr other x))
            (alloc k)).list other).value = b.map (m.list other).value :=
          List.map_congr_left fun y hy => hkeep.value y (by simp [hy])
        have hfirst : ((m.linkBehind (.head this) (m.value (toListPtr other x)) (alloc k)).list
            this).value (.entry (alloc k)) = (m.list other).value x := update_self _ _ _
        rw [hvalues, hrest, List.map_cons, hfirst, List.map_congr_left hold]
        simp
      · exact hkeep.trans (by simpa using hsame)

/-! ## §4. Copies. -/

/-- The two operations that copy. -/
inductive Copying where
  | construct
  | assign
  deriving Repr, DecidableEq

/-- `this` is made a copy of `other`. -/
def copy (m : ListMemory T) (alloc : Nat → Nat) (fuel this other : Nat) :
    Copying → Option (ListMemory T)
  | .construct => m.copyConstruct this other alloc fuel
  | .assign => m.copyAssign this other alloc fuel

/-- A new object is not its own source; one that is assigned to is a list. -/
def Copying.Proper (m : ListMemory T) (this other : Nat) : Copying → Prop
  | .construct => this ≠ other
  | .assign => ∃ l, (m.list this).Linked l

/-- **`this` is a copy of the source**, whose entries were those of `l`: both traversals
show the values of the source, `size()` is the same, and the source is unchanged. -/
structure CopyOf (m m' : ListMemory T) (this other : Nat) (l : List NodePtr) : Prop where
  sequence : ∃ l', (m'.list this).Linked l'
    ∧ l'.map (m'.list this).value = l.map (m.list other).value
  size : (m'.list this).size = (m.list other).size
  source : Unchanged (m.list other) (m'.list other) l

/-- The values read the same from both ends; for an assignment of a list to itself, there
are none. -/
def KeepsOrder (m : ListMemory T) (this other : Nat) (l : List NodePtr) : Prop :=
  if this = other then l = []
  else (l.map (m.list other).value).reverse = l.map (m.list other).value

instance [DecidableEq T] (m : ListMemory T) (this other : Nat) (l : List NodePtr) :
    Decidable (m.KeepsOrder this other l) := inferInstanceAs (Decidable (ite _ _ _))

theorem freeLoop_some (h : (m.list this).Linked (a ++ b)) {fuel : Nat} (hfuel : b.length < fuel) :
    m.freeLoop this fuel (toListPtr this (b.headD .tail)) = some () := by
  induction b generalizing a fuel with
  | nil =>
      obtain ⟨fuel, rfl⟩ := Nat.exists_eq_succ_of_ne_zero (Nat.ne_of_gt hfuel)
      exact if_pos rfl
  | cons x b ih =>
      obtain ⟨fuel, rfl⟩ := Nat.exists_eq_succ_of_ne_zero (Nat.ne_of_gt (Nat.zero_lt_of_lt hfuel))
      have hrest := ih (a := a ++ [x]) (by simpa using h) (Nat.lt_of_succ_lt_succ hfuel)
      have hnext : m.next (toListPtr this x) = toListPtr this (b.headD .tail) := by
        refine next_of_list h.links.next_of_mem ?_
        cases b with
        | nil => simp
        | cons y b => exact fun heq => h.null_notMem (by simp [show y = .null from heq])
      have hne : toListPtr this x ≠ .tail this := fun heq =>
        h.links.tail_notMem (by simp [show x = .tail from toListPtr_inj.mp heq])
      have hround : m.freeLoop this (fuel + 1) (toListPtr this x)
          = m.freeLoop this fuel (m.next (toListPtr this x)) := if_neg hne
      exact hround.trans (hnext ▸ hrest)

/-- **The part both operations share**: `this` is made empty and the copy loop runs. -/
theorem copied (this : Nat) {alloc : Nat → Nat} (hinj : Function.Injective alloc)
    (hsrc : (m.list other).Linked l) (hfresh : ∀ j, .entry (alloc j) ∉ l) :
    ∃ m', (∀ fuel, l.length < fuel →
        copyLoop alloc (.head this) other fuel 0
          ((m.makeEmpty this (m.length other)).next (.head other))
          (m.makeEmpty this (m.length other)) = some m')
      ∧ (CopyOf m m' this other l ↔ KeepsOrder m this other l) := by
  have hempty := linked_makeEmpty m this (m.length other)
  have hcount : (m.makeEmpty this (m.length other)).length this = m.length other :=
    update_self _ _ _
  by_cases hi : this = other
  · -- the entries of the source are gone before the loop starts
    subst hi
    refine ⟨m.makeEmpty this (m.length this), fun fuel hfuel => ?_, fun hcopy => ?_,
      fun hkeeps => ?_⟩
    · obtain ⟨fuel, rfl⟩ := Nat.exists_eq_succ_of_ne_zero (Nat.ne_of_gt (Nat.zero_lt_of_lt hfuel))
      exact if_pos (next_head hempty)
    · have hl := hcopy.source.links.links.unique hempty.links
      exact (if_pos rfl).mpr hl
    · have hl : l = [] := (if_pos rfl).mp hkeeps
      subst hl
      exact ⟨⟨[], hempty, rfl⟩, congrArg UInt64.toUInt32 hcount, hempty, by simp, hcount⟩
  · -- the source keeps its entries, and the loop reverses their values
    have hother := list_makeEmpty m hi (m.length other)
    have hstart := next_head (hother ▸ hsrc)
    obtain ⟨m', nodes, hloop, hlinked, hvalues, hsame, hlength⟩ :=
      copyLoop_spec (a := []) (k := 0) hi hinj l (hother ▸ hsrc) hempty hfresh
        (fun x hx => absurd hx List.not_mem_nil)
    rw [hother] at hvalues hsame
    rw [List.map_nil, List.append_nil] at hvalues
    refine ⟨m', hstart ▸ hloop, fun hcopy => ?_, fun hkeeps => ?_⟩
    · obtain ⟨l', hlinked', hvalues'⟩ := hcopy.sequence
      have hnodes := hlinked'.links.unique hlinked.links
      subst hnodes
      exact (if_neg hi).mpr (hvalues.symm.trans hvalues')
    · have hpalindrome := (if_neg hi).mp hkeeps
      have hsize : m'.length this = m.length other := (congrFun hlength this).trans hcount
      exact ⟨⟨nodes, hlinked, hvalues.trans hpalindrome⟩, congrArg UInt64.toUInt32 hsize, hsame⟩

/-- **WHEN A COPY HAS THE SEQUENCE OF ITS SOURCE.**  Both operations return, for a source
of any length, and what they make is a copy exactly when the values of the source read
the same from both ends: they always arrive in reverse order.  An assignment of a list to
itself empties it and keeps the counter, so there the list has to be empty. -/
theorem list_copy_iff {alloc : Nat → Nat} (hinj : Function.Injective alloc) (how : Copying)
    (hproper : how.Proper m this other) (hsrc : (m.list other).Linked l)
    (hfresh : ∀ j, .entry (alloc j) ∉ l) :
    ∃ m' steps, (∀ fuel, steps ≤ fuel → m.copy alloc fuel this other how = some m')
      ∧ (CopyOf m m' this other l ↔ KeepsOrder m this other l) := by
  obtain ⟨m', hloop, hiff⟩ := copied this hinj hsrc hfresh
  cases how with
  | construct => exact ⟨m', l.length + 1, hloop, hiff⟩
  | assign =>
      -- the old entries are freed first
      obtain ⟨old, hold⟩ := hproper
      refine ⟨m', l.length + old.length + 1, fun fuel hfuel => ?_, hiff⟩
      have hfree := freeLoop_some (a := []) (b := old) hold (show old.length < fuel by omega)
      show (m.freeLoop this fuel (m.next (.head this))).bind _ = some m'
      rw [next_head hold, hfree]
      exact hloop fuel (by omega)

/-- The list object `0` with two entries. -/
def twoValues (a b : Nat) : ListMemory Nat where
  next
    | .head 0 => .entry 0
    | .entry 0 => .entry 1
    | .entry 1 => .tail 0
    | _ => .null
  prev
    | .tail 0 => .entry 1
    | .entry 1 => .entry 0
    | .entry 0 => .head 0
    | _ => .null
  value
    | .entry 0 => a
    | _ => b
  length _ := 2

theorem linked_twoValues (a b : Nat) : ((twoValues a b).list 0).Linked [.entry 0, .entry 1] :=
  ⟨⟨⟨rfl, rfl, rfl, rfl⟩, ⟨rfl, rfl, rfl, rfl⟩, by decide⟩, by decide, rfl⟩

theorem fresh_twoValues (j : Nat) : NodePtr.entry (j + 2) ∉ [NodePtr.entry 0, .entry 1] := by
  simp

/-- The same value twice: the copy is one. -/
theorem list_copy_same_values :
    ∃ m' steps, (∀ fuel, steps ≤ fuel →
        (twoValues 7 7).copy (fun j => j + 2) fuel 1 0 .construct = some m')
      ∧ CopyOf (twoValues 7 7) m' 1 0 [.entry 0, .entry 1] := by
  obtain ⟨m', steps, hcopy, hiff⟩ := list_copy_iff (fun _ _ h => Nat.add_right_cancel h) .construct
    (show Copying.Proper (twoValues 7 7) 1 0 .construct from Nat.one_ne_zero)
    (linked_twoValues 7 7) fresh_twoValues
  exact ⟨m', steps, hcopy, hiff.mpr (by decide)⟩

/-- **Two values arrive the other way round.** -/
theorem copy_reverses_list :
    ¬ ∀ (m : ListMemory Nat) (alloc : Nat → Nat) (how : Copying) (this other : Nat)
        (l : List NodePtr), Function.Injective alloc → how.Proper m this other →
        (m.list other).Linked l → (∀ j, .entry (alloc j) ∉ l) →
        ∃ m' steps, (∀ fuel, steps ≤ fuel → m.copy alloc fuel this other how = some m')
          ∧ CopyOf m m' this other l := by
  intro hclaim
  have hinj : Function.Injective fun j : Nat => j + 2 := fun _ _ h => Nat.add_right_cancel h
  obtain ⟨m', steps, hreturns, hcopy⟩ := hclaim (twoValues 1 2) (fun j => j + 2) .construct 1 0 _
    hinj Nat.one_ne_zero (linked_twoValues 1 2) fresh_twoValues
  obtain ⟨m'', hloop, hiff⟩ := copied 1 hinj (linked_twoValues 1 2) fresh_twoValues
  have hsame : some m' = some m'' :=
    (hreturns (steps + 3) (by omega)).symm.trans (hloop (steps + 3) (by simp))
  rw [Option.some.inj hsame] at hcopy
  exact absurd (hiff.mp hcopy) (by decide)

end ListMemory

end MierOS.Stdlib
