/-
  MierOS.Memory.PPage
  **`PhysicalPage` OWNS ITS FRAME**: the special member functions of `ppage.cpp`
  over any number of objects.

  An object is a pointer to a shared `Data`, which counts the objects that point
  at it (`f_obj_ref_count`) and the mappings of the frame (`f_ref_count`).  A
  `Data` is named by the `palloc` call that gave it its frame; deleted ones are
  gone, so a pointer left behind would be seen at its next use.

  Main result: `physical_page_ownership`.
-/
import MierOS.Lib.Refs
import MierOS.Lib.Run

namespace MierOS.Memory.PPage

open Lib Lib.Refs
open Function (update update_comm update_eq_self update_idem update_of_ne update_self)

/-! ## §1. The code. -/

/-- The address of a `PhysicalPage` object. -/
abbrev ObjPtr := Fin (2 ^ 64)

/-- A `physaddr_t`. -/
abbrev PhysAddr := BitVec 64

/-- A `PhysicalPage::Data*`: the number of the `palloc` call of its constructor. -/
abbrev DataPtr := Nat

/-- `PhysicalPage::Data`, as far as ownership goes. -/
structure Data where
  addr : PhysAddr
  refCount : BitVec 32
  objRefCount : BitVec 64
  deriving Repr, DecidableEq

/-- The objects under construction or alive with their `data` field (`none` inside
is null), the `Data` that are not deleted, what `palloc` returned to each of them,
and what `pfree` was given. -/
structure Heap where
  objects : ObjPtr → Option (Option DataPtr)
  data : DataPtr → Option Data
  pallocs : List PhysAddr
  pfrees : List (DataPtr × PhysAddr)

namespace Heap

/-- No object yet. -/
def init : Heap := ⟨fun _ => none, fun _ => none, [], []⟩

/-- The `data` field of an object. -/
def field (s : Heap) (this : ObjPtr) : Option DataPtr := (s.objects this).join

def setObject (s : Heap) (this : ObjPtr) (o : Option (Option DataPtr)) : Heap :=
  { s with objects := update s.objects this o }

def setData (s : Heap) (d : DataPtr) (D : Option Data) : Heap :=
  { s with data := update s.data d D }

/-- `data->f_obj_ref_count.fetch_add(1)`, on a `Data` that is not deleted. -/
def fetchAdd (s : Heap) (d : DataPtr) : Option Heap :=
  match s.data d with
  | none => none
  | some D => some (s.setData d (some { D with objRefCount := D.objRefCount + 1 }))

/-- `PhysicalPage()`; `frame` is what `palloc(1)` returns. -/
def construct (s : Heap) (this : ObjPtr) (frame : PhysAddr) : Heap :=
  let d := s.pallocs.length
  let s := { s with pallocs := s.pallocs ++ [frame] }
  (s.setData d (some ⟨frame, 0, 1⟩)).setObject this (some (some d))

/-- `~PhysicalPage()`. -/
def destructor (s : Heap) (this : ObjPtr) : Option Heap :=
  match s.field this with
  | none => some s
  | some d =>
      match s.data d with
      | none => none
      | some D =>
          if D.objRefCount = 1 then
            let s := if D.refCount = 0 ∧ D.addr ≠ 0
              then { s with pfrees := s.pfrees ++ [(d, D.addr)] } else s
            some ((s.setData d none).setObject this (some none))
          else some (s.setData d (some { D with objRefCount := D.objRefCount - 1 }))

/-- `PhysicalPage(nullptr)`. -/
def constructNull (s : Heap) (this : ObjPtr) : Heap := s.setObject this (some none)

/-- `PhysicalPage(const PhysicalPage& other)`; `other` must not be null. -/
def copyConstruct (s : Heap) (this other : ObjPtr) : Option Heap :=
  match s.field other with
  | none => none
  | some d => (s.setObject this (some (some d))).fetchAdd d

/-- `leak_ptr()` of `other` into `this`. -/
def takePtr (s : Heap) (this other : ObjPtr) : Heap :=
  (s.setObject other (some none)).setObject this (some (s.field other))

/-- `PhysicalPage(PhysicalPage&& other)`. -/
def moveConstruct (s : Heap) (this other : ObjPtr) : Heap := s.takePtr this other

/-- `operator=(const PhysicalPage& other)`. -/
def copyAssign (s : Heap) (this other : ObjPtr) : Option Heap :=
  match s.destructor this with
  | none => none
  | some s =>
      match s.field other with
      | none => some (s.setObject this (some none))
      | some d => (s.setObject this (some (some d))).fetchAdd d

/-- `operator=(PhysicalPage&& other)`. -/
def moveAssign (s : Heap) (this other : ObjPtr) : Option Heap :=
  (s.destructor this).map (fun s => s.takePtr this other)

/-- The object goes out of scope or is deleted. -/
def destroy (s : Heap) (this : ObjPtr) : Option Heap :=
  (s.destructor this).map (fun s => s.setObject this none)

/-- `ref()` and `unref()` write the count of mappings; the assertion of `unref`
only logs. -/
def modifyRefCount (s : Heap) (this : ObjPtr) (f : BitVec 32 → BitVec 32) : Option Heap :=
  match s.field this with
  | none => none
  | some d =>
      match s.data d with
      | none => none
      | some D => some (s.setData d (some { D with refCount := f D.refCount }))

def ref (s : Heap) (this : ObjPtr) : Option Heap := s.modifyRefCount this (· + 1)

def unref (s : Heap) (this : ObjPtr) : Option Heap := s.modifyRefCount this (· - 1)

/-- `ref_count()`. -/
def refCount (s : Heap) (this : ObjPtr) : Option (BitVec 32) :=
  ((s.field this).bind s.data).map Data.refCount

/-- `addr()`; null has address 0. -/
def addr (s : Heap) (this : ObjPtr) : Option PhysAddr :=
  match s.field this with
  | none => some 0
  | some d => (s.data d).map Data.addr

end Heap

/-- What a program does with its `PhysicalPage` objects. -/
inductive Event where
  | construct (this : ObjPtr) (frame : PhysAddr)
  | constructNull (this : ObjPtr)
  | copyConstruct (this other : ObjPtr)
  | moveConstruct (this other : ObjPtr)
  | copyAssign (this other : ObjPtr)
  | moveAssign (this other : ObjPtr)
  | destroy (this : ObjPtr)
  | ref (this : ObjPtr)
  | unref (this : ObjPtr)
  deriving Repr, DecidableEq

def exec (s : Heap) : Event → Option Heap
  | .construct this frame => some (s.construct this frame)
  | .constructNull this => some (s.constructNull this)
  | .copyConstruct this other => s.copyConstruct this other
  | .moveConstruct this other => some (s.moveConstruct this other)
  | .copyAssign this other => s.copyAssign this other
  | .moveAssign this other => s.moveAssign this other
  | .destroy this => s.destroy this
  | .ref this => s.ref this
  | .unref this => s.unref this

def Step (s : Heap) (e : Event) (s' : Heap) : Prop := exec s e = some s'

/-- There is an object at this address. -/
def Heap.Live (s : Heap) (this : ObjPtr) : Prop := s.objects this ≠ none

/-- What the language and the callers see to: constructors run on free memory that
is not at address 0, other members on objects; copies are made of pages that are not
null; an object is not assigned to itself; mappings are counted on pages that are not
null. -/
def Proper (s : Heap) : Event → Prop
  | .construct this _ => this ≠ 0 ∧ ¬ s.Live this
  | .constructNull this => this ≠ 0 ∧ ¬ s.Live this
  | .copyConstruct this other => this ≠ 0 ∧ ¬ s.Live this ∧ s.field other ≠ none
  | .moveConstruct this other => this ≠ 0 ∧ ¬ s.Live this ∧ s.Live other
  | .copyAssign this other => s.Live this ∧ s.Live other ∧ this ≠ other
  | .moveAssign this other => s.Live this ∧ s.Live other ∧ this ≠ other
  | .destroy this => s.Live this
  | .ref this => s.field this ≠ none
  | .unref this => s.field this ≠ none

/-! ## §2. The counts are right. -/

/-- **The invariant**: every `Data` counts the objects that point at it, has the
frame it was given, and is deleted when its frame is given back. -/
structure Inv (s : Heap) : Prop where
  null : s.objects 0 = none
  count : ∀ d D, s.data d = some D → D.objRefCount.toNat = refs s.field d ∧ 0 < refs s.field d
  dead : ∀ d, s.data d = none → refs s.field d = 0
  frame : ∀ d D, s.data d = some D → s.pallocs[d]? = some D.addr
  freed : ∀ d a, (d, a) ∈ s.pfrees → s.data d = none ∧ s.pallocs[d]? = some a
  once : (s.pfrees.map Prod.fst).Nodup

theorem Inv.init : Inv Heap.init where
  null := rfl
  count := fun d D h => by cases h
  dead := fun d _ => refs_eq_zero (fun i h => by cases h)
  frame := fun d D h => by cases h
  freed := fun d a h => by cases h
  once := List.nodup_nil

section Steps

variable {s s' t t' : Heap} {this other : ObjPtr} {d : DataPtr} {D : Data}

theorem field_setObject (s : Heap) (this : ObjPtr) (o : Option (Option DataPtr)) :
    (s.setObject this o).field = update s.field this o.join :=
  Function.comp_update Option.join s.objects this o

theorem field_setObject_of_eq {o : Option (Option DataPtr)} (h : s.field this = o.join) :
    (s.setObject this o).field = s.field := by
  rw [field_setObject, ← h, update_eq_self]

theorem setObject_setObject (s : Heap) (this : ObjPtr) (o o' : Option (Option DataPtr)) :
    (s.setObject this o).setObject this o' = s.setObject this o' := by
  unfold Heap.setObject
  rw [update_idem]

theorem Inv.ne_zero (h : Inv s) (hlive : s.Live this) : this ≠ 0 := fun h0 => hlive (h0 ▸ h.null)

/-- The object at a live pointer's `Data` is there. -/
theorem Inv.data_of_field (h : Inv s) (hf : s.field this = some d) :
    ∃ D, s.data d = some D := by
  cases hd : s.data d with
  | some D => exact ⟨D, rfl⟩
  | none => exact absurd hf (ne_of_refs_eq_zero (finite_of_fintype _) (h.dead d hd) this)

/-- Some object points at a `Data` that is there, and none at one that is not. -/
theorem Inv.referred_iff (h : Inv s) (d : DataPtr) : (∃ i, s.field i = some d) ↔ s.data d ≠ none := by
  constructor
  · intro ⟨i, hi⟩
    obtain ⟨D, hD⟩ := h.data_of_field hi
    rw [hD]
    exact Option.some_ne_none D
  · intro hd
    obtain ⟨D, hD⟩ := Option.ne_none_iff_exists'.mp hd
    by_contra hno
    have hzero : refs s.field d = 0 := refs_eq_zero (fun i hi => hno ⟨i, hi⟩)
    have hpos := (h.count d D hD).2
    omega

/-- Only what the objects point at matters. -/
theorem Inv.of_field (h : Inv s) (hfield : t.field = s.field) (hnull : t.objects 0 = none)
    (hdata : t.data = s.data) (hpallocs : t.pallocs = s.pallocs) (hpfrees : t.pfrees = s.pfrees) :
    Inv t where
  null := hnull
  count := by rw [hfield, hdata]; exact h.count
  dead := by rw [hfield, hdata]; exact h.dead
  frame := by rw [hdata, hpallocs]; exact h.frame
  freed := by rw [hdata, hpallocs, hpfrees]; exact h.freed
  once := by rw [hpfrees]; exact h.once

/-- What a step gives back: the frames of the `Data` it deletes that are not mapped. -/
def GivesBack (s s' : Heap) : Prop :=
  ∃ l, s'.pfrees = s.pfrees ++ l ∧ ∀ d a, (d, a) ∈ l ↔
    ∃ D, s.data d = some D ∧ s'.data d = none ∧ D.refCount = 0 ∧ D.addr = a ∧ a ≠ 0

theorem GivesBack.of_same (hpfrees : s'.pfrees = s.pfrees)
    (hdata : ∀ d D, s.data d = some D → s'.data d ≠ none) : GivesBack s s' := by
  refine ⟨[], by rw [hpfrees, List.append_nil], fun d a => ⟨fun h => absurd h List.not_mem_nil, ?_⟩⟩
  intro ⟨D, hD, hnone, _⟩
  exact absurd hnone (hdata d D hD)

theorem GivesBack.congr (h : GivesBack s t) (hpfrees : t'.pfrees = t.pfrees)
    (hdata : ∀ d, t'.data d = none ↔ t.data d = none) : GivesBack s t' := by
  obtain ⟨l, hl, hall⟩ := h
  refine ⟨l, hpfrees.trans hl, fun d a => ?_⟩
  rw [hall d a]
  refine exists_congr fun D => and_congr_right fun _ => and_congr_left fun _ => (hdata d).symm

/-- What `pfree` is given when the last object lets go. -/
def givenBack (d : DataPtr) (D : Data) : List (DataPtr × PhysAddr) :=
  if D.refCount = 0 ∧ D.addr ≠ 0 then [(d, D.addr)] else []

theorem mem_givenBack {x : DataPtr} {a : PhysAddr} :
    (x, a) ∈ givenBack d D ↔ x = d ∧ D.refCount = 0 ∧ D.addr = a ∧ a ≠ 0 := by
  unfold givenBack
  split
  · rename_i hfree
    rw [List.mem_singleton, Prod.mk.injEq]
    constructor
    · rintro ⟨rfl, rfl⟩
      exact ⟨rfl, hfree.1, rfl, hfree.2⟩
    · rintro ⟨rfl, _, rfl, _⟩
      exact ⟨rfl, rfl⟩
  · rename_i hkeep
    refine ⟨fun h => absurd h List.not_mem_nil, ?_⟩
    rintro ⟨_, hzero, rfl, ha⟩
    exact absurd ⟨hzero, ha⟩ hkeep

/-- The count of every other `Data` is unchanged when one object lets go of `d`. -/
theorem refs_release (hf : s.field this = some d) (a : DataPtr) :
    refs s.field a = refs (update s.field this none) a + if a = d then 1 else 0 :=
  refs_set_none (finite_of_fintype s.field) hf a

/-- After the update of one `Data` every other one is what it was. -/
theorem data_cases {o : Option Data} (hdata : t.data = update s.data d o) {a : DataPtr}
    {A : Data} (hA : t.data a = some A) : a = d ∧ o = some A ∨ a ≠ d ∧ s.data a = some A := by
  rw [hdata] at hA
  by_cases ha : a = d
  · rw [ha, update_self] at hA
    exact Or.inl ⟨ha, hA⟩
  · rw [update_of_ne ha] at hA
    exact Or.inr ⟨ha, hA⟩

/-- A frame that was given back is not that of a `Data` that is there. -/
theorem Inv.ne_of_freed (h : Inv s) (hD : s.data d = some D) {a : DataPtr} {x : PhysAddr}
    (hmem : (a, x) ∈ s.pfrees) : a ≠ d := by
  rintro rfl
  have hdead := (h.freed a x hmem).1
  rw [hD] at hdead
  cases hdead

/-- **The last object lets go**: the `Data` is deleted and its frame given back. -/
theorem Inv.dropLast (h : Inv s) (hf : s.field this = some d) (hD : s.data d = some D)
    (hone : refs s.field d = 1) (hfield : t.field = update s.field this none)
    (hnull : t.objects 0 = none) (hdata : t.data = update s.data d none)
    (hpallocs : t.pallocs = s.pallocs) (hpfrees : t.pfrees = s.pfrees ++ givenBack d D) : Inv t := by
  have hother : ∀ a, a ≠ d → refs t.field a = refs s.field a := by
    intro a ha
    have hcount := refs_release hf a
    rw [if_neg ha] at hcount
    rw [hfield]
    omega
  have hself : refs t.field d = 0 := by
    have hcount := refs_release hf d
    rw [if_pos rfl] at hcount
    rw [hfield]
    omega
  constructor
  case null => exact hnull
  case count =>
    intro a A hA
    rcases data_cases hdata hA with ⟨_, hnone⟩ | ⟨ha, hA⟩
    · cases hnone
    · rw [hother a ha]
      exact h.count a A hA
  case dead =>
    intro a hA
    by_cases ha : a = d
    · rw [ha]
      exact hself
    · rw [hdata, update_of_ne ha] at hA
      rw [hother a ha]
      exact h.dead a hA
  case frame =>
    intro a A hA
    rw [hpallocs]
    rcases data_cases hdata hA with ⟨_, hnone⟩ | ⟨_, hA⟩
    · cases hnone
    · exact h.frame a A hA
  case freed =>
    intro a x hmem
    rw [hpfrees] at hmem
    rw [hdata, hpallocs]
    rcases List.mem_append.mp hmem with hold | hnew
    · rw [update_of_ne (h.ne_of_freed hD hold)]
      exact h.freed a x hold
    · obtain ⟨rfl, _, rfl, _⟩ := mem_givenBack.mp hnew
      exact ⟨update_self _ _ _, h.frame a D hD⟩
  case once =>
    rw [hpfrees, List.map_append, List.nodup_append]
    refine ⟨h.once, ?_, ?_⟩
    · unfold givenBack
      split
      · exact List.nodup_singleton d
      · exact List.nodup_nil
    · intro x hx y hy hxy
      obtain ⟨⟨x', a⟩, hold, rfl⟩ := List.mem_map.mp hx
      obtain ⟨⟨y', b⟩, hnew, rfl⟩ := List.mem_map.mp hy
      -- what was given back before is deleted
      exact h.ne_of_freed hD hold (hxy.trans (mem_givenBack.mp hnew).1)

/-- One `Data` is counted anew, for the objects that point at it. -/
theorem Inv.recount (h : Inv s) (hD : s.data d = some D) (D' : Data) (haddr : D'.addr = D.addr)
    (hother : ∀ a, a ≠ d → refs t.field a = refs s.field a)
    (hself : D'.objRefCount.toNat = refs t.field d ∧ 0 < refs t.field d)
    (hnull : t.objects 0 = none) (hdata : t.data = update s.data d (some D'))
    (hpallocs : t.pallocs = s.pallocs) (hpfrees : t.pfrees = s.pfrees) : Inv t := by
  have hnone : ∀ a, t.data a = none → a ≠ d ∧ s.data a = none := by
    intro a hA
    have ha : a ≠ d := by
      rintro rfl
      rw [hdata, update_self] at hA
      cases hA
    rw [hdata, update_of_ne ha] at hA
    exact ⟨ha, hA⟩
  constructor
  case null => exact hnull
  case count =>
    intro a A hA
    rcases data_cases hdata hA with ⟨ha, hA⟩ | ⟨ha, hA⟩
    · rw [ha, ← Option.some.inj hA]
      exact hself
    · rw [hother a ha]
      exact h.count a A hA
  case dead =>
    intro a hA
    obtain ⟨ha, hA⟩ := hnone a hA
    rw [hother a ha]
    exact h.dead a hA
  case frame =>
    intro a A hA
    rw [hpallocs]
    rcases data_cases hdata hA with ⟨ha, hA⟩ | ⟨_, hA⟩
    · rw [ha, ← Option.some.inj hA, haddr]
      exact h.frame d D hD
    · exact h.frame a A hA
  case freed =>
    intro a x hmem
    rw [hpfrees] at hmem
    rw [hdata, hpallocs, update_of_ne (h.ne_of_freed hD hmem)]
    exact h.freed a x hmem
  case once =>
    rw [hpfrees]
    exact h.once

/-- **An object lets go of its `Data`**: the destructor, with the pointer gone after it. -/
theorem Inv.release (h : Inv s) (hlive : s.Live this) :
    ∃ s', s.destructor this = some s' ∧ Inv (s'.setObject this (some none))
      ∧ GivesBack s s' ∧ ∀ i, i ≠ this → s'.objects i = s.objects i := by
  have h0 : (0 : ObjPtr) ≠ this := (h.ne_zero hlive).symm
  have hnull : ∀ o : Option (Option DataPtr), update s.objects this o 0 = none := by
    intro o
    rw [update_of_ne h0]
    exact h.null
  unfold Heap.destructor
  cases hf : s.field this with
  | none =>
      refine ⟨s, rfl, ?_, GivesBack.of_same rfl (fun d D hD => by rw [hD]; simp), fun _ _ => rfl⟩
      exact h.of_field (field_setObject_of_eq hf) (hnull _) rfl rfl rfl
  | some d =>
      obtain ⟨D, hD⟩ := h.data_of_field hf
      obtain ⟨hcount, hpos⟩ := h.count d D hD
      simp only [hD]
      by_cases hone : D.objRefCount = 1
      · -- the last one: the `Data` is deleted
        have hlast : refs s.field d = 1 := by
          rw [← hcount, hone]
          rfl
        have hpfrees : (if D.refCount = 0 ∧ D.addr ≠ 0
            then { s with pfrees := s.pfrees ++ [(d, D.addr)] } else s)
            = { s with pfrees := s.pfrees ++ givenBack d D } := by
          unfold givenBack
          split
          · rfl
          · rw [List.append_nil]
        rw [if_pos hone, hpfrees]
        refine ⟨_, rfl, ?_, ?_, fun i hi => update_of_ne hi _ _⟩
        · rw [setObject_setObject]
          exact h.dropLast hf hD hlast (field_setObject _ _ _) (hnull _) rfl rfl rfl
        · refine ⟨givenBack d D, rfl, fun x a => ?_⟩
          rw [mem_givenBack]
          constructor
          · rintro ⟨rfl, hrest⟩
            exact ⟨D, hD, update_self _ _ _, hrest⟩
          · intro ⟨X, hX, hnone, hrest⟩
            have hxd : x = d := by
              by_contra hne
              have hkept : update s.data d none x = none := hnone
              rw [update_of_ne hne, hX] at hkept
              cases hkept
            rw [hxd, hD] at hX
            rw [← Option.some.inj hX] at hrest
            exact ⟨hxd, hrest⟩
      · -- others are left
        rw [if_neg hone]
        have hself := refs_release hf d
        rw [if_pos rfl] at hself
        have hone' : D.objRefCount.toNat ≠ 1 := fun heq => hone (BitVec.eq_of_toNat_eq heq)
        refine ⟨_, rfl, ?_, ?_, fun _ _ => rfl⟩
        · refine h.recount hD { D with objRefCount := D.objRefCount - 1 } rfl ?_ ?_ (hnull _)
            rfl rfl rfl
          · intro a ha
            have hcounta := refs_release hf a
            rw [if_neg ha] at hcounta
            rw [field_setObject]
            exact hcounta.symm
          · rw [field_setObject]
            show (D.objRefCount - 1).toNat = refs (update s.field this none) d
              ∧ 0 < refs (update s.field this none) d
            have hsub : (D.objRefCount - 1).toNat = D.objRefCount.toNat - 1 := by bv_omega
            omega
        · refine GivesBack.of_same rfl fun x X hX => ?_
          by_cases hxd : x = d
          · rw [hxd]
            show update s.data d _ d ≠ none
            rw [update_self]
            simp
          · show update s.data d _ x ≠ none
            rw [update_of_ne hxd, hX]
            simp

/-- **An object without a pointer gets one** to a `Data` that is there. -/
theorem Inv.attach (h : Inv s) (hfree : s.field this = none) (h0 : this ≠ 0)
    (hD : s.data d = some D) :
    ∃ s', (s.setObject this (some (some d))).fetchAdd d = some s' ∧ Inv s'
      ∧ s'.pfrees = s.pfrees ∧ ∀ a, s'.data a = none ↔ s.data a = none := by
  have hrefs := fun a => refs_set_some (finite_of_fintype s.field) hfree d a
  have hself := hrefs d
  rw [if_pos rfl] at hself
  have hfield : (s.setObject this (some (some d))).field = update s.field this (some d) :=
    field_setObject s this _
  -- the count cannot wrap: address 0 holds no object
  have hbound : refs (update s.field this (some d)) d < 2 ^ 64 := by
    have hzero : update s.field this (some d) 0 = none := by
      rw [update_of_ne h0.symm]
      unfold Heap.field
      rw [h.null]
      rfl
    have hcard := refs_lt_card hzero d
    rwa [Fintype.card_fin] at hcard
  unfold Heap.fetchAdd
  have hD' : (s.setObject this (some (some d))).data d = some D := hD
  rw [hD']
  refine ⟨_, rfl, ?_, rfl, ?_⟩
  · refine h.recount hD { D with objRefCount := D.objRefCount + 1 } rfl ?_ ?_ ?_ rfl rfl rfl
    · intro a ha
      have hcount := hrefs a
      rw [if_neg ha] at hcount
      exact (congrArg (refs · a) hfield).trans hcount
    · have hcount := (h.count d D hD).1
      show (D.objRefCount + 1).toNat = refs (s.setObject this (some (some d))).field d
        ∧ 0 < refs (s.setObject this (some (some d))).field d
      rw [hfield]
      have hadd : (D.objRefCount + 1).toNat = D.objRefCount.toNat + 1 := by bv_omega
      omega
    · show update s.objects this _ 0 = none
      rw [update_of_ne h0.symm]
      exact h.null
  · intro a
    show update s.data d _ a = none ↔ _
    by_cases ha : a = d
    · rw [ha, update_self, hD]
      simp
    · rw [update_of_ne ha]

/-- **A pointer moves** from one object to another that has none. -/
theorem Inv.takePtr (h : Inv s) (hfree : s.field this = none) (h0 : this ≠ 0)
    (hlive : s.Live other) (hne : this ≠ other) : Inv (s.takePtr this other) := by
  have hfield : (s.takePtr this other).field
      = update (update s.field other none) this (s.field other) := by
    unfold Heap.takePtr
    rw [field_setObject, field_setObject]
    rfl
  have hrefs : ∀ a, refs (s.takePtr this other).field a = refs s.field a := by
    intro a
    have hclear := refs_update (finite_of_fintype s.field) other none a
    have hset := refs_update (finite_of_fintype (update s.field other none)) this
      (s.field other) a
    rw [update_of_ne hne, hfree] at hset
    rw [tally_none] at hset hclear
    rw [hfield]
    simp only [Pi.zero_apply] at hset hclear
    omega
  refine ⟨?_, ?_, ?_, h.frame, h.freed, h.once⟩
  · show update (update s.objects other _) this _ 0 = none
    rw [update_of_ne h0.symm, update_of_ne (h.ne_zero hlive).symm]
    exact h.null
  · intro a A hA
    rw [hrefs]
    exact h.count a A hA
  · intro a hA
    rw [hrefs]
    exact h.dead a hA

/-- The number of the next `palloc` call names no `Data`. -/
theorem Inv.fresh (h : Inv s) : s.data s.pallocs.length = none := by
  cases hd : s.data s.pallocs.length with
  | none => rfl
  | some D =>
      have hframe := h.frame _ D hd
      rw [List.getElem?_eq_none (Nat.le_refl _)] at hframe
      cases hframe

theorem Inv.construct (h : Inv s) (hfree : s.field this = none) (h0 : this ≠ 0)
    (frame : PhysAddr) : Inv (s.construct this frame) := by
  have hfresh := h.fresh
  have hfield : (s.construct this frame).field
      = update s.field this (some s.pallocs.length) := field_setObject _ _ _
  have hrefs := fun a => refs_set_some (finite_of_fintype s.field) hfree s.pallocs.length a
  have hself := hrefs s.pallocs.length
  rw [if_pos rfl, h.dead _ hfresh] at hself
  have hdata : (s.construct this frame).data
      = update s.data s.pallocs.length (some ⟨frame, 0, 1⟩) := rfl
  have hold : ∀ (a : Nat) (x : PhysAddr), s.pallocs[a]? = some x → (s.pallocs ++ [frame])[a]? = some x := by
    intro a x ha
    obtain ⟨hlt, _⟩ := List.getElem?_eq_some_iff.mp ha
    rw [List.getElem?_append_left hlt]
    exact ha
  constructor
  case null =>
    show update s.objects this _ 0 = none
    rw [update_of_ne h0.symm]
    exact h.null
  case count =>
    intro a A hA
    rw [hfield]
    rcases data_cases hdata hA with ⟨ha, hA⟩ | ⟨ha, hA⟩
    · rw [ha, hself, ← Option.some.inj hA]
      exact ⟨rfl, Nat.one_pos⟩
    · have hcount := hrefs a
      rw [if_neg ha] at hcount
      rw [hcount]
      exact h.count a A hA
  case dead =>
    intro a hA
    have ha : a ≠ s.pallocs.length := by
      rintro rfl
      rw [hdata, update_self] at hA
      cases hA
    have hcount := hrefs a
    rw [if_neg ha] at hcount
    rw [hdata, update_of_ne ha] at hA
    rw [hfield, hcount]
    exact h.dead a hA
  case frame =>
    intro a A hA
    rcases data_cases hdata hA with ⟨ha, hA⟩ | ⟨_, hA⟩
    · rw [ha, ← Option.some.inj hA]
      exact List.getElem?_concat_length
    · exact hold a A.addr (h.frame a A hA)
  case freed =>
    intro a x hmem
    obtain ⟨hdead, hframe⟩ := h.freed a x hmem
    -- the new number was not given out before
    have ha : a ≠ s.pallocs.length := by
      rintro rfl
      rw [List.getElem?_eq_none (Nat.le_refl _)] at hframe
      cases hframe
    rw [hdata, update_of_ne ha]
    exact ⟨hdead, hold a x hframe⟩
  case once => exact h.once

theorem Inv.modifyRefCount (h : Inv s) {f : BitVec 32 → BitVec 32} (hfield : s.field this ≠ none) :
    ∃ s', s.modifyRefCount this f = some s' ∧ Inv s' ∧ GivesBack s s' := by
  obtain ⟨d, hd⟩ := Option.ne_none_iff_exists'.mp hfield
  obtain ⟨D, hD⟩ := h.data_of_field hd
  unfold Heap.modifyRefCount
  simp only [hd, hD]
  refine ⟨_, rfl, h.recount hD { D with refCount := f D.refCount } rfl (fun _ _ => rfl)
    (h.count d D hD) h.null rfl rfl rfl, GivesBack.of_same rfl fun x X hX => ?_⟩
  show update s.data d _ x ≠ none
  by_cases hxd : x = d
  · rw [hxd, update_self]
    simp
  · rw [update_of_ne hxd, hX]
    simp

/-- After a release the object can be overwritten. -/
theorem free_after_release (s : Heap) (this : ObjPtr) :
    (s.setObject this (some none)).field this = none := by
  rw [field_setObject, update_self]
  rfl

theorem field_of_objects (hobjects : s'.objects other = s.objects other) :
    s'.field other = s.field other := by
  unfold Heap.field
  rw [hobjects]

theorem Inv.copyAssign (h : Inv s) (hthis : s.Live this) (hne : this ≠ other) :
    ∃ s', s.copyAssign this other = some s' ∧ Inv s' ∧ GivesBack s s' := by
  obtain ⟨t, ht, hinv, hback, hobjects⟩ := h.release hthis
  have hfield : t.field other = s.field other := field_of_objects (hobjects other hne.symm)
  have hfield' : (t.setObject this (some none)).field other = t.field other := by
    rw [field_setObject, update_of_ne hne.symm]
  unfold Heap.copyAssign
  rw [ht]
  cases hf : t.field other with
  | none =>
      dsimp only
      rw [hf]
      exact ⟨_, rfl, hinv, hback.congr rfl (fun _ => Iff.rfl)⟩
  | some d =>
      obtain ⟨D, hD⟩ := hinv.data_of_field (hfield'.trans hf)
      obtain ⟨s', hs', hinv', hpfrees, hdata⟩ :=
        hinv.attach (free_after_release t this) (h.ne_zero hthis) hD
      rw [setObject_setObject] at hs'
      dsimp only
      rw [hf]
      exact ⟨s', hs', hinv', hback.congr hpfrees hdata⟩

theorem Inv.moveAssign (h : Inv s) (hthis : s.Live this) (hother : s.Live other)
    (hne : this ≠ other) :
    ∃ s', s.moveAssign this other = some s' ∧ Inv s' ∧ GivesBack s s' := by
  obtain ⟨t, ht, hinv, hback, hobjects⟩ := h.release hthis
  have hlive : (t.setObject this (some none)).Live other := by
    show update t.objects this _ other ≠ none
    rw [update_of_ne hne.symm, hobjects other hne.symm]
    exact hother
  have htake := hinv.takePtr (free_after_release t this) (h.ne_zero hthis) hlive hne
  -- the pointer that was cleared is overwritten
  have hsame : (t.setObject this (some none)).takePtr this other = t.takePtr this other := by
    unfold Heap.takePtr Heap.setObject
    have hfield' : Heap.field { t with objects := update t.objects this (some none) } other
        = t.field other := by
      unfold Heap.field
      dsimp only
      rw [update_of_ne hne.symm]
    rw [hfield']
    dsimp only
    rw [update_comm hne, update_idem]
  rw [hsame] at htake
  unfold Heap.moveAssign
  rw [ht]
  exact ⟨_, rfl, htake, hback.congr rfl (fun _ => Iff.rfl)⟩

theorem Inv.destroy (h : Inv s) (hthis : s.Live this) :
    ∃ s', s.destroy this = some s' ∧ Inv s' ∧ GivesBack s s' := by
  obtain ⟨t, ht, hinv, hback, _⟩ := h.release hthis
  have h0 := h.ne_zero hthis
  unfold Heap.destroy
  rw [ht]
  refine ⟨_, rfl, hinv.of_field ?_ ?_ rfl rfl rfl, hback.congr rfl (fun _ => Iff.rfl)⟩
  · rw [field_setObject, field_setObject]
    rfl
  · have hnull := hinv.null
    show update t.objects this none 0 = none
    rw [update_of_ne h0.symm]
    have hkept : update t.objects this (some none) 0 = none := hnull
    rwa [update_of_ne h0.symm] at hkept

theorem field_of_not_live (h : ¬ s.Live this) : s.field this = none := by
  unfold Heap.field
  rw [show s.objects this = none from not_not.mp h]
  rfl

/-- A new object or one with a new pointer: nothing is given back. -/
theorem givesBack_of_kept (hpfrees : s'.pfrees = s.pfrees)
    (hdata : ∀ d, s'.data d = none ↔ s.data d = none) : GivesBack s s' := by
  refine GivesBack.of_same hpfrees fun d D hD hnone => ?_
  rw [hdata d, hD] at hnone
  cases hnone

/-- **Step lemma**: every proper step runs, keeps the counts right and gives back
the frames of what it deletes. -/
theorem Inv.exec {e : Event} (h : Inv s) (hproper : Proper s e) :
    ∃ s', exec s e = some s' ∧ Inv s' ∧ GivesBack s s' := by
  cases e with
  | construct this frame =>
      refine ⟨_, rfl, h.construct (field_of_not_live hproper.2) hproper.1 frame,
        GivesBack.of_same rfl fun d D hD => ?_⟩
      show update s.data s.pallocs.length _ d ≠ none
      by_cases hd : d = s.pallocs.length
      · rw [hd, update_self]
        simp
      · rw [update_of_ne hd, hD]
        simp
  | constructNull this =>
      refine ⟨_, rfl, h.of_field (field_setObject_of_eq (field_of_not_live hproper.2)) ?_ rfl rfl rfl,
        givesBack_of_kept rfl (fun _ => Iff.rfl)⟩
      show update s.objects this _ 0 = none
      rw [update_of_ne hproper.1.symm]
      exact h.null
  | copyConstruct this other =>
      obtain ⟨h0, hthis, hother⟩ := hproper
      obtain ⟨d, hd⟩ := Option.ne_none_iff_exists'.mp hother
      obtain ⟨D, hD⟩ := h.data_of_field hd
      obtain ⟨s', hs', hinv, hpfrees, hdata⟩ := h.attach (field_of_not_live hthis) h0 hD
      refine ⟨s', ?_, hinv, givesBack_of_kept hpfrees hdata⟩
      show s.copyConstruct this other = some s'
      unfold Heap.copyConstruct
      rw [hd]
      exact hs'
  | moveConstruct this other =>
      obtain ⟨h0, hthis, hother⟩ := hproper
      have hne : this ≠ other := fun heq => hthis (heq ▸ hother)
      exact ⟨_, rfl, h.takePtr (field_of_not_live hthis) h0 hother hne,
        givesBack_of_kept rfl (fun _ => Iff.rfl)⟩
  | copyAssign this other => exact h.copyAssign hproper.1 hproper.2.2
  | moveAssign this other => exact h.moveAssign hproper.1 hproper.2.1 hproper.2.2
  | destroy this => exact h.destroy hproper
  | ref this => exact h.modifyRefCount (f := (· + 1)) hproper
  | unref this => exact h.modifyRefCount (f := (· - 1)) hproper

end Steps

/-! ## §3. Runs. -/

/-- The condition on a step, in the form runs take it. -/
def ProperStep (_ : List Event) (s : Heap) (e : Event) : Prop := Proper s e

/-- **A `PhysicalPage` owns its frame**, in every run:

  1. what one `palloc` returned is given to `pfree` at most once, unchanged, and
     never while an object points at it;
  2. `addr()` of an object is what `palloc` returned, as long as it lives;
  3. every step runs, and it gives a frame back exactly when the last object
     that points at it lets go and its `ref_count()` is 0 then. -/
theorem physical_page_ownership {hist : List Event} {s : Heap}
    (hrun : GuardedRun Step ProperStep Heap.init hist s) :
    (∀ d, (s.pfrees.map Prod.fst).count d ≤ 1)
      ∧ (∀ d a, (d, a) ∈ s.pfrees → s.pallocs[d]? = some a ∧ ∀ i, s.field i ≠ some d)
      ∧ (∀ i d, s.field i = some d → ∃ a, s.pallocs[d]? = some a ∧ s.addr i = some a)
      ∧ ∀ e, Proper s e → ∃ s', exec s e = some s' ∧ ∃ l, s'.pfrees = s.pfrees ++ l
        ∧ ∀ d a, (d, a) ∈ l ↔ (∃ i, s.field i = some d ∧ s.refCount i = some 0)
          ∧ (∀ i, s'.field i ≠ some d) ∧ s.pallocs[d]? = some a ∧ a ≠ 0 := by
  have hinv : Inv s := by
    refine hrun.historyInvariant (fun _ s => Inv s) Inv.init ?_
    intro _ s e s' h hproper hst
    obtain ⟨t, ht, hinv, _⟩ := h.exec hproper
    have heq : s' = t := Option.some.inj (hst.symm.trans ht)
    exact heq ▸ hinv
  refine ⟨fun d => List.nodup_iff_count_le_one.mp hinv.once d, ?_, ?_, ?_⟩
  · intro d a hmem
    obtain ⟨hdead, hframe⟩ := hinv.freed d a hmem
    refine ⟨hframe, fun i hi => ?_⟩
    exact (hinv.referred_iff d).mp ⟨i, hi⟩ hdead
  · intro i d hi
    obtain ⟨D, hD⟩ := hinv.data_of_field hi
    refine ⟨D.addr, hinv.frame d D hD, ?_⟩
    unfold Heap.addr
    simp only [hi, hD]
    rfl
  · intro e hproper
    obtain ⟨s', hs', hinv', l, hl, hall⟩ := hinv.exec hproper
    refine ⟨s', hs', l, hl, fun d a => ?_⟩
    rw [hall d a]
    have hnobody : (∀ i, s'.field i ≠ some d) ↔ s'.data d = none := by
      rw [← not_exists, hinv'.referred_iff d, not_not]
    rw [hnobody]
    constructor
    · rintro ⟨D, hD, hdead, hzero, rfl, ha⟩
      obtain ⟨i, hi⟩ := (hinv.referred_iff d).mpr (by rw [hD]; simp)
      refine ⟨⟨i, hi, ?_⟩, hdead, hinv.frame d D hD, ha⟩
      unfold Heap.refCount
      rw [hi, Option.bind_some, hD, Option.map_some, hzero]
    · intro ⟨⟨i, hi, hzero⟩, hdead, hframe, ha⟩
      obtain ⟨D, hD⟩ := hinv.data_of_field hi
      unfold Heap.refCount at hzero
      rw [hi, Option.bind_some, hD, Option.map_some] at hzero
      have haddr := (hinv.frame d D hD).symm.trans hframe
      exact ⟨D, hD, hdead, Option.some.inj hzero, Option.some.inj haddr, ha⟩

/-- A page is copied, the original goes, and the copy is mapped and unmapped before it
goes too. -/
def copiedPage : List Event :=
  [.destroy 2, .unref 2, .ref 2, .destroy 1, .copyConstruct 2 1, .construct 1 4096]

theorem physical_page_ownership_copy :
    ∃ s, GuardedRun Step ProperStep Heap.init copiedPage s ∧ s.pfrees = [(0, 4096)]
      ∧ ∀ i, s.field i ≠ some 0 := by
  obtain ⟨s, hrun, hpfrees⟩ : ∃ s, GuardedRun Step ProperStep Heap.init copiedPage s
      ∧ s.pfrees = [(0, 4096)] := by
    refine ⟨_, .step (.step (.step (.step (.step (.step .init ?_ rfl) ?_ rfl) ?_ rfl) ?_ rfl) ?_ rfl)
      ?_ rfl, rfl⟩
    · exact ⟨by decide, fun hlive => hlive rfl⟩
    · exact ⟨by decide, fun hlive => hlive rfl, Option.some_ne_none 0⟩
    · exact Option.some_ne_none (some 0)
    · exact Option.some_ne_none 0
    · exact Option.some_ne_none 0
    · exact Option.some_ne_none (some 0)
  refine ⟨s, hrun, hpfrees, ?_⟩
  exact ((physical_page_ownership hrun).2.1 0 4096 (by rw [hpfrees]; exact List.mem_singleton_self _)).2

end MierOS.Memory.PPage
