/-
  MierOS.Tasking.FaultCases
  **WHAT A PAGE FAULT CAN DO**, once for all later proofs.

  `Fault` lists the outcomes of `handle_page_fault`.  A fault that does
  anything replaces one slot (`Replaced`): a new page is placed in it
  (`anonymous`, `sharedFresh`, `read`, `copy`, `fileCopy`) or one that was there
  before (`sharedAgain`, `cached`, `reenable`, `steal`).  `handlePageFault_cases`
  is the only place where the handler is unfolded.
-/
import MierOS.Tasking.SpaceInvariant

namespace MierOS.Tasking

open Memory.Virtual
open Lib.Refs

namespace Space

variable {v v' v'' : Space} {p a : Nat}

/-! ## §1. The outcomes. -/

/-- Shared anonymous pages, vnodes and statuses are as before. -/
structure Rest (v v' : Space) : Prop where
  anons : v'.anons = v.anons
  sharedPages : v'.sharedPages = v.sharedPages
  status : v'.status = v.status

/-- The page of the file that backs address `a` of a mapping. -/
def fileOffset (f : FilePage) (a : Nat) : Nat := (a - f.startAddr + f.offset) % 2 ^ 52

/-- The handler zeroes the page through the page table. -/
def Zeroes (m : Machine) (flags : PageFlags) : Prop := flags.writable = true ∨ m.wp = false

/-- **The outcomes of a page fault** at page `a`. -/
inductive Fault (m : Machine) (v : Space) (p a code frame : Nat) (mem : Nat → Bytes) :
    FaultResult → Space → Prop
  /-- Nothing to do, or nothing that may be done. -/
  | nothing {r : FaultResult} : r ≠ .halted → Fault m v p a code frame mem r v
  /-- No frame for a new page. -/
  | failed {w : Space} : frame = 0 → Good w → w.maps = v.maps → w.table = v.table →
      w.status = v.status → (∀ x, x ≠ v.next → w.pages x = v.pages x) →
      Fault m v p a code frame mem .refused w
  | anonymous {flags : PageFlags} {zero : Bool} {w : Space} :
      v.maps p a = some (.anonymous flags zero) → frame ≠ 0 → Zeroes m flags →
      Replaced v p a (.memory v.next false) v.next ⟨.priv, frame, flags, false, fun _ => 0⟩ w →
      w.next = v.next + 1 → Rest v w → Fault m v p a code frame mem .handled w
  | sharedFresh {o : AnonPtr} {w : Space} : v.maps p a = some (.sharedAnonymous o) →
      v.isNull (v.anons o).page = true → frame ≠ 0 → Zeroes m (v.anons o).flags →
      Replaced v p a (.memory v.next true) v.next
        ⟨.shared o, frame, (v.anons o).flags, false, fun _ => 0⟩ w →
      w.next = v.next + 1 →
      w.anons = Function.update v.anons o { v.anons o with page := some v.next } →
      w.sharedPages = v.sharedPages → w.status = v.status →
      Fault m v p a code frame mem .handled w
  | sharedAgain {o : AnonPtr} {d : PagePtr} {w : Space} : v.maps p a = some (.sharedAnonymous o) →
      (v.anons o).page = some d → (v.pages d).addr ≠ 0 → Zeroes m (v.pages d).flags →
      Replaced v p a (.memory d true) d { v.pages d with bytes := fun _ => 0 } w →
      w.next = v.next → Rest v w → Fault m v p a code frame mem .handled w
  /-- The handler faults on a page it may not write. -/
  | anonymousHalt {flags : PageFlags} {zero : Bool} {bytes : Bytes} {w : Space}
      {held : Option PagePtr} : v.maps p a = some (.anonymous flags zero) → frame ≠ 0 →
      ¬ Zeroes m flags →
      Replaced v p a (.memory v.next false) v.next ⟨.priv, frame, flags, false, bytes⟩ w →
      w.next = v.next + 1 → Rest v w →
      Fault m v p a code frame mem .halted (w.setStatus p (.stuck held))
  | sharedFreshHalt {o : AnonPtr} {bytes : Bytes} {w : Space} {held : Option PagePtr} :
      v.maps p a = some (.sharedAnonymous o) →
      v.isNull (v.anons o).page = true → frame ≠ 0 → ¬ Zeroes m (v.anons o).flags →
      Replaced v p a (.memory v.next true) v.next
        ⟨.shared o, frame, (v.anons o).flags, false, bytes⟩ w →
      w.next = v.next + 1 →
      w.anons = Function.update v.anons o { v.anons o with page := some v.next } →
      w.sharedPages = v.sharedPages → w.status = v.status →
      Fault m v p a code frame mem .halted (w.setStatus p (.stuck held))
  | sharedAgainHalt {o : AnonPtr} {d : PagePtr} {w : Space} {held : Option PagePtr} :
      v.maps p a = some (.sharedAnonymous o) →
      (v.anons o).page = some d → (v.pages d).addr ≠ 0 → ¬ Zeroes m (v.pages d).flags →
      Replaced v p a (.memory d true) d (v.pages d) w →
      w.next = v.next → Rest v w →
      Fault m v p a code frame mem .halted (w.setStatus p (.stuck held))
  | cached {f : FilePage} {d : PagePtr} {w : Space} : v.maps p a = some (.file f) →
      v.sharedPages f.file (fileOffset f a) = some d → (v.pages d).addr ≠ 0 →
      Replaced v p a (.fileMemory (v.resolvedMapping f a d) f.shared) d (v.pages d) w →
      w.next = v.next → Rest v w → Fault m v p a code frame mem .handled w
  | read {f : FilePage} {bytes : Bytes} {flags : PageFlags} {w : Space} :
      v.maps p a = some (.file f) →
      v.sharedPages f.file (fileOffset f a) = none →
      m.readFile f.file (fileOffset f a) = some bytes → frame ≠ 0 →
      Replaced v p a (.fileMemory ⟨f.file, v.next, a - f.startAddr, false, f.flags⟩ f.shared) v.next
        ⟨.file f.file (fileOffset f a), frame, flags, false, bytes⟩ w →
      w.next = v.next + 1 → w.anons = v.anons → w.status = v.status →
      w.sharedPages = (if f.shared then
        (v.setSharedPage f.file (fileOffset f a) (some v.next)).sharedPages else v.sharedPages) →
      Fault m v p a code frame mem .handled w
  | copy {d : PagePtr} {w : Space} : v.maps p a = some (.memory d false) → code.testBit 1 = true →
      (v.pages d).copyOnWrite = true → v.readers d > 1 →
      Replaced v p a (.memory v.next false) v.next
        ⟨.priv, frame, { (v.pages d).flags with writable := true }, false,
          mem (v.pages d).addr⟩ w →
      w.next = v.next + 1 → Rest v w → Fault m v p a code frame mem .handled w
  | reenable {d : PagePtr} {w : Space} : v.maps p a = some (.memory d false) →
      code.testBit 1 = true → (v.pages d).copyOnWrite = true → v.readers d ≤ 1 →
      Replaced v p a (.memory d false) d
        { v.pages d with copyOnWrite := false, flags := { (v.pages d).flags with writable := true } }
        w →
      w.next = v.next → Rest v w → Fault m v p a code frame mem .handled w
  | fileCopy {f : MemoryFilePage} {shared : Bool} {x : PagePtr} {flags : PageFlags} {w : Space} :
      v.maps p a = some (.fileMemory f shared) → code.testBit 1 = true → f.copyOnWrite = true →
      v.readers f.page > 1 → v.table p 0 = some (x, flags) →
      Replaced v p a
        (.fileMemory ⟨f.file, v.next, f.offset, false, { f.flags with writable := true }⟩ shared)
        v.next ⟨(v.pages f.page).kind, frame, defaultFlags, false, mem (v.pages x).addr⟩ w →
      w.next = v.next + 1 → Rest v w → Fault m v p a code frame mem .handled w
  | fileCopyHalt {f : MemoryFilePage} {shared : Bool} {w : Space} {held : Option PagePtr} :
      v.maps p a = some (.fileMemory f shared) → code.testBit 1 = true → f.copyOnWrite = true →
      v.readers f.page > 1 → v.table p 0 = none →
      Resolved v (v.pages f.page).kind frame defaultFlags w → Rest v w →
      Fault m v p a code frame mem .halted (w.setStatus p (.stuck held))
  | steal {f : MemoryFilePage} {shared : Bool} {w : Space} :
      v.maps p a = some (.fileMemory f shared) → code.testBit 1 = true → f.copyOnWrite = true →
      v.readers f.page ≤ 1 →
      Replaced v p a
        (.fileMemory ⟨f.file, f.page, f.offset, false, { f.flags with writable := true }⟩ shared)
        f.page (v.pages f.page) w →
      w.next = v.next → w.anons = v.anons → w.status = v.status →
      w.sharedPages = (v.setSharedPage f.file f.offset none).sharedPages →
      Fault m v p a code frame mem .handled w

/-! ## §2. The invariant after a fault. -/

/-- A new page of the right kind is placed in a slot. -/
theorem Good.replacedNew (h : Good v) {e : MemoryEntry} {D : PageInfo}
    (hr : Replaced v p a e v.next D v') (hext : Extends v v') (hpages : PagesOk v')
    (hed : e.held = some v.next) (hok : v'.EntryOk e) : Good v' := by
  apply h.replaced hr hext hpages hed hok
  · intro q b shared _ he
    exact absurd (h.lt he rfl) (Nat.lt_irrefl _)
  · intro _ _ q b x _ hx hheld
    exact absurd (h.lt hx hheld) (Nat.lt_irrefl _)

theorem Replaced.extendsNew {e : MemoryEntry} {D : PageInfo} (hr : Replaced v p a e v.next D v')
    (hanons : ∀ o d, o < v.next → d < v.next → (v.anons o).page = some d → (v.pages d).addr ≠ 0 →
      (v'.anons o).page = some d) : Extends v v' := by
  refine ⟨hr.next, ?_, hanons⟩
  intro d hd
  rw [hr.old d (Nat.ne_of_lt hd)]
  exact ⟨rfl, rfl⟩

theorem Replaced.extendsOld {e : MemoryEntry} {d : PagePtr} {D : PageInfo}
    (hr : Replaced v p a e d D v') (hD : D.kind = (v.pages d).kind ∧ D.addr = (v.pages d).addr)
    (hanons : v'.anons = v.anons) : Extends v v' := by
  refine ⟨hr.next, ?_, ?_⟩
  · intro x _
    by_cases hxd : x = d
    · rw [hxd, hr.page]
      exact hD
    · rw [hr.old x hxd]
      exact ⟨rfl, rfl⟩
  · intro o x _ _ hpage _
    rw [hanons]
    exact hpage

/-- Who held an old page may still hold it; the new page is held by its own
kind. -/
theorem PagesOk.replacedNew (h : PagesOk v) {e : MemoryEntry} {D : PageInfo}
    (hr : Replaced v p a e v.next D v') (hnext : v'.next = v.next + 1)
    (hanons : ∀ o d, (v'.anons o).page = some d →
      (v.anons o).page = some d ∨ (d = v.next ∧ o < v.next ∧ D.kind = .shared o))
    (hcache : ∀ file offset d, v'.sharedPages file offset = some d →
      v.sharedPages file offset = some d ∨ (d = v.next ∧ D.kind = .file file offset))
    (hcow : D.copyOnWrite = false) : PagesOk v' := by
  have hlt : v.next < v'.next := by
    rw [hnext]
    exact Nat.lt_succ_self _
  refine ⟨?_, ?_, ?_⟩
  · intro o d hpage
    cases hanons o d hpage with
    | inl hold =>
        have hold := h.anons o d hold
        rw [hr.old d (Nat.ne_of_lt hold.2.1)]
        exact ⟨Nat.lt_trans hold.1 hlt, Nat.lt_trans hold.2.1 hlt, hold.2.2⟩
    | inr hnew =>
        rw [hnew.1, hr.page]
        exact ⟨Nat.lt_trans hnew.2.1 hlt, hlt, hnew.2.2⟩
  · intro file offset d hd
    cases hcache file offset d hd with
    | inl hold =>
        have hold := h.cache file offset d hold
        rw [hr.old d (Nat.ne_of_lt hold.1)]
        exact ⟨Nat.lt_trans hold.1 hlt, hold.2⟩
    | inr hnew =>
        rw [hnew.1, hr.page]
        exact ⟨hlt, hnew.2⟩
  · intro d hd
    by_cases hdn : d = v.next
    · rw [hdn, hr.page, hcow] at hd
      cases hd
    · rw [hr.old d hdn] at hd ⊢
      exact h.cow d hd

theorem PagesOk.replacedOld (h : PagesOk v) {e : MemoryEntry} {d : PagePtr} {D : PageInfo}
    (hr : Replaced v p a e d D v') (hnext : v'.next = v.next) (hanons : v'.anons = v.anons)
    (hcache : ∀ file offset x, v'.sharedPages file offset = some x →
      v.sharedPages file offset = some x)
    (hkind : D.kind = (v.pages d).kind)
    (hcow : D.copyOnWrite = true → (v.pages d).kind = .priv) : PagesOk v' := by
  have hkinds : ∀ x, (v'.pages x).kind = (v.pages x).kind := by
    intro x
    by_cases hxd : x = d
    · rw [hxd, hr.page]
      exact hkind
    · rw [hr.old x hxd]
  refine ⟨?_, ?_, ?_⟩
  · intro o x hpage
    rw [hanons] at hpage
    rw [hnext, hkinds]
    exact h.anons o x hpage
  · intro file offset x hx
    rw [hnext, hkinds]
    exact h.cache file offset x (hcache file offset x hx)
  · intro x hx
    rw [hkinds]
    by_cases hxd : x = d
    · rw [hxd, hr.page] at hx
      rw [hxd]
      exact hcow hx
    · rw [hr.old x hxd] at hx
      exact h.cow x hx

theorem resolvedMapping_file (v : Space) (f : FilePage) (a : Nat) (d : PagePtr) :
    (v.resolvedMapping f a d).file = f.file := by
  unfold Space.resolvedMapping
  split <;> rfl

/-- A new page that only its slot holds. -/
theorem Good.newInSlot (h : Good v) {e : MemoryEntry} {D : PageInfo}
    (hr : Replaced v p a e v.next D v') (hnext : v'.next = v.next + 1) (hrest : Rest v v')
    (hcow : D.copyOnWrite = false) (hed : e.held = some v.next) (hok : v'.EntryOk e) : Good v' := by
  apply h.replacedNew hr _ _ hed hok
  · apply hr.extendsNew
    intro o d _ _ hpage _
    rw [hrest.anons]
    exact hpage
  · apply h.pagesOk.replacedNew hr hnext _ _ hcow
    · intro o d hpage
      rw [hrest.anons] at hpage
      exact Or.inl hpage
    · intro file offset d hd
      rw [hrest.sharedPages] at hd
      exact Or.inl hd

theorem Good.anonymousPlaced (h : Good v) {frame : Nat} {flags : PageFlags} {bytes : Bytes}
    (hr : Replaced v p a (.memory v.next false) v.next ⟨.priv, frame, flags, false, bytes⟩ v')
    (hnext : v'.next = v.next + 1) (hrest : Rest v v') : Good v' := by
  apply h.newInSlot hr hnext hrest rfl rfl
  show v.next < v'.next ∧ (v'.pages v.next).kind = .priv
  rw [hnext, hr.page]
  exact ⟨Nat.lt_succ_self _, rfl⟩

theorem Good.sharedFreshPlaced (h : Good v) {o : AnonPtr} {frame : Nat} {flags : PageFlags}
    {bytes : Bytes} (ho : o < v.next) (hnull : v.isNull (v.anons o).page = true) (hframe : frame ≠ 0)
    (hr : Replaced v p a (.memory v.next true) v.next ⟨.shared o, frame, flags, false, bytes⟩ v')
    (hnext : v'.next = v.next + 1)
    (hanons : v'.anons = Function.update v.anons o { v.anons o with page := some v.next })
    (hcache : v'.sharedPages = v.sharedPages) : Good v' := by
  have hpage : (v'.anons o).page = some v.next := by
    rw [hanons, Function.update_self]
  apply h.replacedNew hr _ _ rfl
  · show v.next < v'.next ∧ (v'.pages v.next).addr ≠ 0
      ∧ ∃ o, o < v'.next ∧ (v'.pages v.next).kind = .shared o ∧ (v'.anons o).page = some v.next
    rw [hr.page, hnext]
    exact ⟨Nat.lt_succ_self _, hframe, o, Nat.lt_succ_of_lt ho, rfl, hpage⟩
  · apply hr.extendsNew
    intro x d _ _ hd haddr
    by_cases hxo : x = o
    · -- a page with a frame is not replaced
      subst hxo
      rw [hd] at hnull
      exact absurd (of_decide_eq_true hnull) haddr
    · rw [hanons, Function.update_of_ne hxo]
      exact hd
  · apply h.pagesOk.replacedNew hr hnext _ _ rfl
    · intro x d hd
      by_cases hxo : x = o
      · subst hxo
        rw [hpage] at hd
        exact Or.inr ⟨(Option.some.inj hd).symm, ho, rfl⟩
      · rw [hanons, Function.update_of_ne hxo] at hd
        exact Or.inl hd
    · intro file offset d hd
      rw [hcache] at hd
      exact Or.inl hd

/-- The cache has no page that it did not have. -/
theorem Rest.cached (hrest : Rest v v') (file offset : Nat) (d : PagePtr)
    (hd : v'.sharedPages file offset = some d) : v.sharedPages file offset = some d := by
  rw [hrest.sharedPages] at hd
  exact hd

/-- A page that was there before is placed in a slot that others may share. -/
theorem Good.oldInSlot (h : Good v) {e : MemoryEntry} {d : PagePtr} {bytes : Bytes}
    (hr : Replaced v p a e d { v.pages d with bytes := bytes } v') (hnext : v'.next = v.next)
    (hanons : v'.anons = v.anons)
    (hcache : ∀ file offset x, v'.sharedPages file offset = some x →
      v.sharedPages file offset = some x)
    (hed : e.held = some d) (hok : v'.EntryOk e) (hshared : e ≠ .memory d false) : Good v' := by
  apply h.replaced hr (hr.extendsOld ⟨rfl, rfl⟩ hanons) _ hed hok
  · intro q b shared _ _
    rfl
  · intro hprivate
    exact absurd hprivate hshared
  · exact h.pagesOk.replacedOld hr hnext hanons hcache rfl (h.pagesOk.cow _)

theorem Good.sharedAgainPlaced (h : Good v) {o : AnonPtr} {d : PagePtr} {bytes : Bytes}
    (hpage : (v.anons o).page = some d) (haddr : (v.pages d).addr ≠ 0)
    (hr : Replaced v p a (.memory d true) d { v.pages d with bytes := bytes } v')
    (hnext : v'.next = v.next) (hrest : Rest v v') : Good v' := by
  have hanon := h.pagesOk.anons o d hpage
  apply h.oldInSlot hr hnext hrest.anons hrest.cached rfl
  · show d < v'.next ∧ (v'.pages d).addr ≠ 0
      ∧ ∃ o, o < v'.next ∧ (v'.pages d).kind = .shared o ∧ (v'.anons o).page = some d
    rw [hr.page, hnext, hrest.anons]
    exact ⟨hanon.2.1, haddr, o, hanon.1, hanon.2.2, hpage⟩
  · intro hprivate
    cases hprivate

/-- A page of a file comes from the cache. -/
theorem Good.cachedPlaced (h : Good v) {f : FilePage} {d : PagePtr}
    (hcache : v.sharedPages f.file (fileOffset f a) = some d)
    (hr : Replaced v p a (.fileMemory (v.resolvedMapping f a d) f.shared) d (v.pages d) v')
    (hnext : v'.next = v.next) (hrest : Rest v v') : Good v' := by
  have hd := h.pagesOk.cache _ _ _ hcache
  apply h.oldInSlot hr hnext hrest.anons hrest.cached
  · exact congrArg some (v.resolvedMapping_page f a d)
  · show (v.resolvedMapping f a d).page < v'.next ∧ ∃ offset,
      (v'.pages (v.resolvedMapping f a d).page).kind = .file (v.resolvedMapping f a d).file offset
    rw [resolvedMapping_page, resolvedMapping_file, hr.page, hnext]
    exact ⟨hd.1, _, hd.2⟩
  · intro hprivate
    cases hprivate

/-- A page of a file is read, and goes into the cache if the mapping is shared. -/
theorem Good.readPlaced (h : Good v) {f : FilePage} {frame : Nat} {bytes : Bytes}
    {flags : PageFlags}
    (hr : Replaced v p a (.fileMemory ⟨f.file, v.next, a - f.startAddr, false, f.flags⟩ f.shared)
      v.next ⟨.file f.file (fileOffset f a), frame, flags, false, bytes⟩ v')
    (hnext : v'.next = v.next + 1) (hanons : v'.anons = v.anons)
    (hcache : v'.sharedPages = if f.shared then
      (v.setSharedPage f.file (fileOffset f a) (some v.next)).sharedPages else v.sharedPages) :
    Good v' := by
  apply h.replacedNew hr _ _ rfl
  · show v.next < v'.next ∧ ∃ offset, (v'.pages v.next).kind = .file f.file offset
    rw [hr.page, hnext]
    exact ⟨Nat.lt_succ_self _, _, rfl⟩
  · apply hr.extendsNew
    intro o d _ _ hpage _
    rw [hanons]
    exact hpage
  · apply h.pagesOk.replacedNew hr hnext _ _ rfl
    · intro o d hpage
      rw [hanons] at hpage
      exact Or.inl hpage
    · intro file offset d hd
      rw [hcache] at hd
      split at hd
      · rw [sharedPages_setSharedPage] at hd
        split at hd
        · -- the new page under its own offset
          rename_i hfo
          rw [hfo.1, hfo.2]
          exact Or.inr ⟨(Option.some.inj hd).symm, rfl⟩
        · exact Or.inl hd
      · exact Or.inl hd

/-- The last reader of a page may write it again. -/
theorem Good.reenabled (h : Good v) {d : PagePtr} {flags : PageFlags}
    (hd : d < v.next ∧ (v.pages d).kind = .priv)
    (hself : ∀ q b x, (q, b) ≠ (p, a) → v.maps q b = some x → x.held ≠ some d)
    (hr : Replaced v p a (.memory d false) d
      { v.pages d with copyOnWrite := false, flags := flags } v')
    (hnext : v'.next = v.next) (hrest : Rest v v') : Good v' := by
  apply h.replaced hr (hr.extendsOld ⟨rfl, rfl⟩ hrest.anons) _ rfl
  · show d < v'.next ∧ (v'.pages d).kind = .priv
    rw [hnext, hr.page]
    exact hd
  · intro q b shared hqb hx
    exact absurd rfl (hself q b _ hqb hx)
  · intro _ _
    exact hself
  · apply h.pagesOk.replacedOld hr hnext hrest.anons hrest.cached rfl
    intro hcow
    cases hcow

/-- The last mapping of a page takes it out of the cache. -/
theorem Good.stolen (h : Good v) {f : MemoryFilePage} {shared : Bool} {flags : PageFlags}
    (hf : f.page < v.next ∧ ∃ offset, (v.pages f.page).kind = .file f.file offset)
    (hr : Replaced v p a (.fileMemory ⟨f.file, f.page, f.offset, false, flags⟩ shared) f.page
      (v.pages f.page) v')
    (hnext : v'.next = v.next) (hanons : v'.anons = v.anons)
    (hcache : v'.sharedPages = (v.setSharedPage f.file f.offset none).sharedPages) : Good v' := by
  apply h.oldInSlot hr hnext hanons
  · intro file offset x hx
    rw [hcache, sharedPages_setSharedPage] at hx
    split at hx
    · cases hx
    · exact hx
  · rfl
  · show f.page < v'.next ∧ ∃ offset, (v'.pages f.page).kind = .file f.file offset
    rw [hnext, hr.page]
    exact hf
  · intro hprivate
    cases hprivate

/-- Another page of the map is the page of one mapping only. -/
theorem unique_of_readers (hfin : Finite (mapped v.maps)) {d : PagePtr} {e : MemoryEntry}
    (hone : v.readers d ≤ 1) (he : v.maps p a = some e) (hd : e.held = some d) :
    ∀ q b x, (q, b) ≠ (p, a) → v.maps q b = some x → x.held ≠ some d := by
  intro q b x hqb hx hxd
  apply hqb
  apply unique_of_refs_le_one hfin hone
  · show (v.maps q b).bind _ = some d
    rw [hx]
    exact hxd
  · show (v.maps p a).bind _ = some d
    rw [he]
    exact hd

/-- **A page fault keeps the invariant.** -/
theorem Fault.good (h : Good v) (hfin : Finite (mapped v.maps)) {m : Machine} {code frame : Nat}
    {mem : Nat → Bytes} {r : FaultResult} (hf : Fault m v p a code frame mem r v') : Good v' := by
  cases hf with
  | nothing _ => exact h
  | failed _ hw _ _ _ _ => exact hw
  | anonymous _ _ _ hr hnext hrest => exact h.anonymousPlaced hr hnext hrest
  | anonymousHalt _ _ _ hr hnext hrest => exact (h.anonymousPlaced hr hnext hrest).setStatus _ _
  | sharedFresh he hnull hframe _ hr hnext hanons hcache _ =>
      exact h.sharedFreshPlaced (h.entries p a _ he) hnull hframe hr hnext hanons hcache
  | sharedFreshHalt he hnull hframe _ hr hnext hanons hcache _ =>
      exact (h.sharedFreshPlaced (h.entries p a _ he) hnull hframe hr hnext hanons hcache).setStatus
        _ _
  | sharedAgain _ hpage haddr _ hr hnext hrest =>
      exact h.sharedAgainPlaced hpage haddr hr hnext hrest
  | sharedAgainHalt _ hpage haddr _ hr hnext hrest =>
      exact (h.sharedAgainPlaced hpage haddr hr hnext hrest).setStatus _ _
  | cached _ hcache _ hr hnext hrest => exact h.cachedPlaced hcache hr hnext hrest
  | read _ _ _ _ hr hnext hanons _ hcache => exact h.readPlaced hr hnext hanons hcache
  | copy _ _ _ _ hr hnext hrest => exact h.anonymousPlaced hr hnext hrest
  | reenable he _ _ hone hr hnext hrest =>
      exact h.reenabled (h.entries p a _ he) (unique_of_readers hfin hone he rfl) hr hnext hrest
  | @fileCopy f shared x flags _ he _ _ _ _ hr hnext hrest =>
      obtain ⟨hlt, offset, hkind⟩ := h.entries p a _ he
      apply h.newInSlot hr hnext hrest rfl rfl
      show v.next < v'.next ∧ ∃ offset, (v'.pages v.next).kind = .file f.file offset
      rw [hnext, hr.page]
      exact ⟨Nat.lt_succ_self _, offset, hkind⟩
  | fileCopyHalt _ _ _ _ _ hr hrest => exact (h.resolved hr hrest.sharedPages).setStatus _ _
  | steal he _ _ _ hr hnext hanons _ hcache =>
      exact h.stolen (h.entries p a _ he) hr hnext hanons hcache

theorem status_setStatus (p : Nat) (held : Option PagePtr) (hst : v'.status = v.status) :
    (v'.setStatus p (.stuck held)).status = Function.update v.status p (.stuck held) := by
  rw [← hst]
  rfl

/-- A fault that stops the handler stops the process. -/
theorem Fault.status {m : Machine} {code frame : Nat} {mem : Nat → Bytes} {r : FaultResult}
    (hf : Fault m v p a code frame mem r v') :
    (r ≠ .halted ∧ v'.status = v.status)
      ∨ ∃ held, v'.status = Function.update v.status p (.stuck held) := by
  cases hf with
  | nothing hr => exact Or.inl ⟨hr, rfl⟩
  | failed _ _ _ _ hst _ => exact Or.inl ⟨by simp, hst⟩
  | anonymous _ _ _ _ _ hrest => exact Or.inl ⟨by simp, hrest.status⟩
  | sharedFresh _ _ _ _ _ _ _ _ hst => exact Or.inl ⟨by simp, hst⟩
  | sharedAgain _ _ _ _ _ _ hrest => exact Or.inl ⟨by simp, hrest.status⟩
  | cached _ _ _ _ _ hrest => exact Or.inl ⟨by simp, hrest.status⟩
  | read _ _ _ _ _ _ _ hst _ => exact Or.inl ⟨by simp, hst⟩
  | copy _ _ _ _ _ _ hrest => exact Or.inl ⟨by simp, hrest.status⟩
  | reenable _ _ _ _ _ _ hrest => exact Or.inl ⟨by simp, hrest.status⟩
  | fileCopy _ _ _ _ _ _ _ hrest => exact Or.inl ⟨by simp, hrest.status⟩
  | steal _ _ _ _ _ _ _ hst _ => exact Or.inl ⟨by simp, hst⟩
  | @anonymousHalt flags zero bytes w held _ _ _ _ _ hrest =>
      exact Or.inr ⟨held, status_setStatus p held hrest.status⟩
  | @sharedFreshHalt o bytes w held _ _ _ _ _ _ _ _ hst =>
      exact Or.inr ⟨held, status_setStatus p held hst⟩
  | @sharedAgainHalt o d w held _ _ _ _ _ _ hrest =>
      exact Or.inr ⟨held, status_setStatus p held hrest.status⟩
  | @fileCopyHalt f shared w held _ _ _ _ _ _ hrest =>
      exact Or.inr ⟨held, status_setStatus p held hrest.status⟩

/-- Every page has a frame. -/
def Framed (v : Space) : Prop := ∀ d, (v.pages d).addr ≠ 0

theorem Framed.replaced (h : Framed v) {e : MemoryEntry} {d : PagePtr} {D : PageInfo}
    (hr : Replaced v p a e d D v') (hD : D.addr ≠ 0) : Framed v' := by
  intro x
  by_cases hxd : x = d
  · rw [hxd, hr.page]
    exact hD
  · rw [hr.old x hxd]
    exact h x

/-- **A fault that gets a frame leaves every page with one.** -/
theorem Fault.framed {m : Machine} {code frame : Nat} {mem : Nat → Bytes} {r : FaultResult}
    (hf : Fault m v p a code frame mem r v') (h : Framed v) (hframe : frame ≠ 0) : Framed v' := by
  cases hf with
  | nothing _ => exact h
  | failed hzero _ _ _ _ _ => exact absurd hzero hframe
  | anonymous _ _ _ hr _ _ => exact h.replaced hr hframe
  | anonymousHalt _ _ _ hr _ _ => exact h.replaced (hr.setStatus p _) hframe
  | sharedFresh _ _ _ _ hr _ _ _ _ => exact h.replaced hr hframe
  | sharedFreshHalt _ _ _ _ hr _ _ _ _ => exact h.replaced (hr.setStatus p _) hframe
  | sharedAgain _ _ haddr _ hr _ _ => exact h.replaced hr haddr
  | sharedAgainHalt _ _ haddr _ hr _ _ => exact h.replaced (hr.setStatus p _) haddr
  | cached _ _ haddr hr _ _ => exact h.replaced hr haddr
  | read _ _ _ _ hr _ _ _ _ => exact h.replaced hr hframe
  | copy _ _ _ _ hr _ _ => exact h.replaced hr hframe
  | reenable _ _ _ _ hr _ _ => exact h.replaced hr (h _)
  | fileCopy _ _ _ _ _ hr _ _ => exact h.replaced hr hframe
  | @fileCopyHalt f shared w held _ _ _ _ _ hr _ =>
      intro d
      show (w.pages d).addr ≠ 0
      by_cases hdn : d = v.next
      · rw [hdn, hr.addr]
        exact hframe
      · rw [hr.old d hdn]
        exact h d
  | steal _ _ _ _ hr _ _ _ _ => exact h.replaced hr (h _)

/-! ## §3. The handler has these outcomes. -/

/-- `map`, then the entry is written in place. -/
theorem replaced_setEntry (v : Space) (p a : Nat) (d : PagePtr) (flags : PageFlags) (e : MemoryEntry)
    (hpte : v.pteOf (some e) = some (d, { flags with present := true })) :
    Replaced v p a e d (v.pages d) ((v.map p a d flags).setEntry p a (some e)) := by
  refine ⟨rfl, ?_, rfl, fun _ _ => rfl, Nat.le_refl _⟩
  intro q b
  have hsame : ((v.map p a d flags).setEntry p a (some e)).pteOf (some e) = v.pteOf (some e) :=
    pteOf_congr fun _ _ _ => rfl
  rw [hsame, hpte]
  exact Space.table_setTable v p a _ q b

theorem maps_set_self {M : Maps} {e : Option MemoryEntry} (he : M p a = e) : M.set p a e = M := by
  funext q b
  rw [Maps.set_apply]
  split
  · rename_i hqb
    rw [hqb.1, hqb.2, he]
  · rfl

theorem Replaced.congr_page {e : MemoryEntry} {d : PagePtr} {D D' : PageInfo}
    (hr : Replaced v p a e d D v') (hD : D = D') : Replaced v p a e d D' v' := hD ▸ hr

theorem Resolved.setEntry {kind : Kind} {frame : Nat} {flags : PageFlags} {v₁ : Space}
    (hr : Resolved v kind frame flags v₁) (fl : PageFlags) (e : MemoryEntry)
    (hpte : v₁.pteOf (some e) = some (v.next, { fl with present := true })) :
    Replaced v p a e v.next (v₁.pages v.next) ((v₁.map p a v.next fl).setEntry p a (some e)) :=
  hr.replaced (replaced_setEntry v₁ p a v.next fl e hpte)

theorem resolved_bare (v : Space) (kind : Kind) (frame : Nat) (junk : Bytes) :
    Resolved v kind frame defaultFlags (v.newPage kind frame junk) := by
  constructor
  case old =>
    intro x hx
    exact newPage_pages v kind frame junk hx
  case kind => rw [newPage_self]
  case addr => rw [newPage_self]
  case flags => rw [newPage_self]
  case copyOnWrite => rw [newPage_self]
  all_goals rfl

theorem Resolved.setFlags {kind : Kind} {frame : Nat} {flags : PageFlags}
    (h : Resolved v kind frame flags v') (fl : PageFlags) :
    Resolved v kind frame fl (v'.setFlags v.next fl) := by
  constructor
  case maps => exact h.maps
  case table => exact h.table
  case status => exact h.status
  case next => exact h.next
  case anons => exact h.anons
  case old =>
    intro x hx
    rw [setFlags_pages, if_neg hx]
    exact h.old x hx
  case kind => rw [setFlags_pages, if_pos rfl]; exact h.kind
  case addr => rw [setFlags_pages, if_pos rfl]; exact h.addr
  case flags => rw [setFlags_pages, if_pos rfl]
  case copyOnWrite => rw [setFlags_pages, if_pos rfl]; exact h.copyOnWrite

theorem Resolved.page_eq {kind : Kind} {frame : Nat} {flags : PageFlags}
    (h : Resolved v kind frame flags v') {bytes : Bytes} (hbytes : (v'.pages v.next).bytes = bytes) :
    v'.pages v.next = ⟨kind, frame, flags, false, bytes⟩ := by
  have hD : ∀ D : PageInfo, D = ⟨D.kind, D.addr, D.flags, D.copyOnWrite, D.bytes⟩ := fun _ => rfl
  rw [hD (v'.pages v.next), h.kind, h.addr, h.flags, h.copyOnWrite, hbytes]

theorem memoryFault_cases (m : Machine) (h : Good v) {d : PagePtr} {shared : Bool}
    (he : v.maps p a = some (.memory d shared)) (code frame : Nat) (mem : Nat → Bytes) :
    Fault m v p a code frame mem (v.memoryFault p a code frame d shared mem).1
      (v.memoryFault p a code frame d shared mem).2 := by
  unfold Space.memoryFault
  by_cases hw : code.testBit 1 = true ∧ (v.pages d).copyOnWrite = true
  · rw [if_pos hw]
    -- only private pages are marked
    have hok := h.entries p a _ he
    have hpriv := MemoryEntry.memory.inj (hok.eq_private (h.pagesOk.cow d hw.2) rfl)
    rw [hpriv.2] at he ⊢
    have hlt := h.lt he rfl
    have hdn : d ≠ v.next := Nat.ne_of_lt hlt
    by_cases hone : v.readers d > 1
    · rw [if_pos hone]
      have htable : v.table p a = some (d, { (v.pages d).flags with present := true }) := by
        rw [h.agrees, he]
        rfl
      unfold Space.copyMemory
      dsimp only
      rw [show (v.newPage (v.pages d).kind frame (mem frame)).table p a = v.table p a from rfl,
        htable]
      dsimp only
      have h₁ := resolved_bare v (v.pages d).kind frame (mem frame)
      rw [h₁.old d hdn]
      have h₂ := h₁.setBytes (mem (v.pages d).addr)
      rw [h₂.old d hdn]
      have h₃ := h₂.setFlags { (v.pages d).flags with writable := true }
      have hbytes : ((((v.newPage (v.pages d).kind frame (mem frame)).setBytes v.next
          (mem (v.pages d).addr)).setFlags v.next
          { (v.pages d).flags with writable := true }).pages v.next).bytes
          = mem (v.pages d).addr := by
        rw [setFlags_pages, if_pos rfl]
        unfold Space.setBytes
        rw [modifyPage_pages, if_pos rfl]
      have hpl := h₃.setEntry (p := p) (a := a) _ (.memory v.next false) rfl
      have hD := h₃.page_eq hbytes
      rw [h.pagesOk.cow d hw.2] at hD hpl ⊢
      exact Fault.copy he hw.1 hw.2 hone (hpl.congr_page hD) rfl ⟨rfl, rfl, rfl⟩
    · rw [if_neg hone]
      have hpages : ∀ x, (v.reenableMemory p a d).pages x = if x = d then
          { v.pages x with copyOnWrite := false, flags := { (v.pages x).flags with writable := true } }
          else v.pages x := by
        intro x
        unfold Space.reenableMemory
        dsimp only
        show ((v.setCopyOnWrite d false).setFlags d _).pages x = _
        by_cases hxd : x = d
        · subst hxd
          rw [setFlags_pages, if_pos rfl, if_pos rfl]
          unfold Space.setCopyOnWrite
          rw [modifyPage_pages, if_pos rfl]
        · rw [setFlags_pages, if_neg hxd, if_neg hxd]
          unfold Space.setCopyOnWrite
          rw [modifyPage_pages, if_neg hxd]
      have hpl : Replaced v p a (.memory d false) d { v.pages d with
          copyOnWrite := false, flags := { (v.pages d).flags with writable := true } }
          (v.reenableMemory p a d) := by
        constructor
        case maps => exact (maps_set_self he).symm
        case table =>
          intro q b
          exact Space.table_setTable _ p a _ q b
        case page => rw [hpages, if_pos rfl]
        case old =>
          intro x hx
          rw [hpages, if_neg hx]
        case next => exact Nat.le_refl _
      exact Fault.reenable he hw.1 hw.2 (Nat.le_of_not_gt hone) hpl rfl ⟨rfl, rfl, rfl⟩
  · rw [if_neg hw]
    split
    · exact Fault.nothing (by simp)
    · exact Fault.nothing (by simp)

theorem setPageMapping_frame (v : Space) (p a : Nat) (e : MemoryEntry) :
    (v.setPageMapping p a e).next = v.next ∧ (v.setPageMapping p a e).anons = v.anons
      ∧ (v.setPageMapping p a e).sharedPages = v.sharedPages
      ∧ (v.setPageMapping p a e).status = v.status := by
  have hframe := v.unmapPage_frame p a
  exact ⟨hframe.2.2.2, hframe.2.1, hframe.2.2.1, Space.status_setPageMapping v p a e⟩

/-- `map_page` where nothing was mapped. -/
theorem replaced_mapPage (hold : ∀ x, v.maps p a = some x → x.held = none) (d : PagePtr)
    (shared : Bool) : Replaced v p a (.memory d shared) d (v.pages d) (v.mapPage p a d shared) :=
  replaced_setPageMapping hold d (v.pages d).flags (.memory d shared) rfl

theorem anonymousFault_cases (m : Machine) (h : Good v) {flags : PageFlags} {zero : Bool}
    (he : v.maps p a = some (.anonymous flags zero)) (code frame : Nat) (mem : Nat → Bytes) :
    Fault m v p a code frame mem
      ((v.resolveAnonymous .priv flags zero frame mem).anonymousFault m p a v.next false).1
      ((v.resolveAnonymous .priv flags zero frame mem).anonymousFault m p a v.next false).2 := by
  obtain ⟨hr, hcache⟩ := resolved_resolveAnonymous v .priv flags zero frame mem
  generalize v.resolveAnonymous .priv flags zero frame mem = v₁ at hr hcache
  unfold Space.anonymousFault
  rw [hr.addr]
  by_cases hframe : frame = 0
  · rw [if_pos hframe]
    exact Fault.failed hframe (h.resolved hr hcache) hr.maps hr.table hr.status hr.old
  · rw [if_neg hframe]
    dsimp only
    have hpages : (v₁.mapPage p a v.next false).pages = v₁.pages := Space.pages_setPageMapping _ _ _ _
    have hkeep := setPageMapping_frame (v₁.map p a v.next (v₁.pages v.next).flags) p a
      (.memory v.next false)
    have hnext : (v₁.mapPage p a v.next false).next = v.next + 1 := hkeep.1.trans hr.next
    have hrest : Rest v (v₁.mapPage p a v.next false) :=
      ⟨hkeep.2.1.trans hr.anons, hkeep.2.2.1.trans hcache, hkeep.2.2.2.trans hr.status⟩
    have hpl := hr.replaced (replaced_mapPage (p := p) (a := a) (by
      intro x hx
      rw [hr.maps, he] at hx
      rw [← Option.some.inj hx]
      rfl) v.next false)
    rw [hpages, hr.flags]
    by_cases hw : flags.writable = true ∨ m.wp = false
    · rw [if_pos hw]
      have hD := hr.page_eq (rfl : (v₁.pages v.next).bytes = _)
      refine Fault.anonymous he hframe hw ((hpl.setBytes (fun _ => 0)).congr_page ?_) hnext
        ⟨hrest.anons, hrest.sharedPages, hrest.status⟩
      rw [hD]
    · rw [if_neg hw]
      exact Fault.anonymousHalt he hframe hw (hpl.congr_page (hr.page_eq rfl)) hnext hrest

/-- The handler's part of a shared anonymous fault, once the page is there. -/
theorem sharedFault_split (m : Machine) (v : Space) (p a : Nat) (d : PagePtr)
    (haddr : (v.pages d).addr ≠ 0) :
    v.anonymousFault m p a d true
      = if (v.pages d).flags.writable = true ∨ m.wp = false then
          (.handled, (v.mapPage p a d true).setBytes d (fun _ => 0))
        else (.halted, (v.mapPage p a d true).setStatus p (.stuck (some d))) := by
  have hpages : (v.mapPage p a d true).pages = v.pages := Space.pages_setPageMapping _ _ _ _
  unfold Space.anonymousFault
  rw [if_neg haddr]
  dsimp only
  rw [hpages]

theorem sharedFault_again (m : Machine) {o : AnonPtr} {d : PagePtr}
    (he : v.maps p a = some (.sharedAnonymous o)) (hpage : (v.anons o).page = some d)
    (haddr : (v.pages d).addr ≠ 0) (code frame : Nat) (mem : Nat → Bytes) :
    Fault m v p a code frame mem (v.anonymousFault m p a d true).1
      (v.anonymousFault m p a d true).2 := by
  have hkeep := setPageMapping_frame (v.map p a d (v.pages d).flags) p a (.memory d true)
  have hrest : Rest v (v.mapPage p a d true) := ⟨hkeep.2.1, hkeep.2.2.1, hkeep.2.2.2⟩
  have hpl := replaced_mapPage (v := v) (p := p) (a := a) (by
    intro x hx
    rw [he] at hx
    rw [← Option.some.inj hx]
    rfl) d true
  rw [sharedFault_split m v p a d haddr]
  by_cases hw : (v.pages d).flags.writable = true ∨ m.wp = false
  · rw [if_pos hw]
    exact Fault.sharedAgain he hpage haddr hw (hpl.setBytes _) hkeep.1
      ⟨hrest.anons, hrest.sharedPages, hrest.status⟩
  · rw [if_neg hw]
    exact Fault.sharedAgainHalt he hpage haddr hw hpl hkeep.1 hrest

theorem sharedFault_cases (m : Machine) (h : Good v) {o : AnonPtr}
    (he : v.maps p a = some (.sharedAnonymous o)) (code frame : Nat) (mem : Nat → Bytes) :
    Fault m v p a code frame mem
      ((v.resolveShared o frame mem).anonymousFault m p a
        (((v.resolveShared o frame mem).anons o).page.getD 0) true).1
      ((v.resolveShared o frame mem).anonymousFault m p a
        (((v.resolveShared o frame mem).anons o).page.getD 0) true).2 := by
  unfold Space.resolveShared
  by_cases hnull : v.isNull (v.anons o).page = true
  · rw [if_pos hnull]
    unfold Space.resolveFresh
    obtain ⟨hr, hcache⟩ := resolved_resolveAnonymous v (.shared o) (v.anons o).flags
      (v.anons o).zero frame mem
    generalize v.resolveAnonymous (.shared o) (v.anons o).flags (v.anons o).zero frame mem = v₁
      at hr hcache
    have ho : o < v.next := h.entries p a _ he
    have hanons : (v₁.setAnonPage o v.next).anons
        = Function.update v.anons o { v.anons o with page := some v.next } := by
      show Function.update v₁.anons o _ = _
      rw [hr.anons]
    have hget : (((v₁.setAnonPage o v.next).anons o).page.getD 0) = v.next := by
      rw [hanons, Function.update_self]
      rfl
    rw [hget]
    by_cases hframe : frame = 0
    · -- the page without a frame stays behind
      have hzero : ((v₁.setAnonPage o v.next).pages v.next).addr = 0 := hr.addr.trans hframe
      unfold Space.anonymousFault
      rw [if_pos hzero]
      have h₁ := h.resolved hr hcache
      refine Fault.failed hframe ?_ hr.maps hr.table hr.status hr.old
      refine h₁.extend (Extends.setAnonPage v₁ ?_ _) ?_ rfl rfl (fun _ _ => rfl)
      · rw [hr.anons]
        cases hpage : (v.anons o).page with
        | none => rfl
        | some d =>
            have hd := h.pagesOk.anons o d hpage
            rw [hpage] at hnull
            show decide ((v₁.pages d).addr = 0) = true
            rw [hr.old d (Nat.ne_of_lt hd.2.1)]
            exact hnull
      · apply h₁.pagesOk.setAnonPage
        · rw [hr.next]
          exact Nat.lt_succ_of_lt ho
        · rw [hr.next]
          exact Nat.lt_succ_self _
        · exact hr.kind
    · have haddr : ((v₁.setAnonPage o v.next).pages v.next).addr ≠ 0 := by
        show (v₁.pages v.next).addr ≠ 0
        rw [hr.addr]
        exact hframe
      have hflags : ((v₁.setAnonPage o v.next).pages v.next).flags = (v.anons o).flags := hr.flags
      have hkeep := setPageMapping_frame ((v₁.setAnonPage o v.next).map p a v.next
        ((v₁.setAnonPage o v.next).pages v.next).flags) p a (.memory v.next true)
      have hpl₁ := replaced_mapPage (v := v₁.setAnonPage o v.next) (p := p) (a := a) (by
        intro x hx
        have hx' : v₁.maps p a = some x := hx
        rw [hr.maps, he] at hx'
        rw [← Option.some.inj hx']
        rfl) v.next true
      have hr' : Resolved { v with anons := (v₁.setAnonPage o v.next).anons } (.shared o) frame
          (v.anons o).flags (v₁.setAnonPage o v.next) :=
        ⟨hr.maps, hr.table, hr.status, hr.next, rfl, hr.old, hr.kind, hr.addr, hr.flags,
          hr.copyOnWrite⟩
      have hpl₂ := hr'.replaced hpl₁
      have hpl : Replaced v p a (.memory v.next true) v.next (v₁.pages v.next)
          ((v₁.setAnonPage o v.next).mapPage p a v.next true) :=
        ⟨hpl₂.maps, hpl₂.table, hpl₂.page, hpl₂.old, hpl₂.next⟩
      rw [sharedFault_split m _ p a v.next haddr, hflags]
      by_cases hw : (v.anons o).flags.writable = true ∨ m.wp = false
      · rw [if_pos hw]
        refine Fault.sharedFresh he hnull hframe hw ((hpl.setBytes (fun _ => 0)).congr_page ?_)
          (hkeep.1.trans hr.next) (hkeep.2.1.trans hanons) (hkeep.2.2.1.trans hcache)
          (hkeep.2.2.2.trans hr.status)
        rw [hr.page_eq rfl]
      · rw [if_neg hw]
        exact Fault.sharedFreshHalt he hnull hframe hw (hpl.congr_page (hr.page_eq rfl))
          (hkeep.1.trans hr.next) (hkeep.2.1.trans hanons) (hkeep.2.2.1.trans hcache)
          (hkeep.2.2.2.trans hr.status)
  · rw [if_neg hnull]
    cases hpage : (v.anons o).page with
    | none =>
        rw [hpage] at hnull
        exact absurd rfl hnull
    | some d =>
        apply sharedFault_again m he hpage
        intro hzero
        rw [hpage] at hnull
        exact hnull (decide_eq_true hzero)

/-- Nobody maps a page that does not exist yet. -/
theorem Good.readers_next (h : Good v) : v.readers v.next = 0 := by
  apply refs_eq_zero
  intro i hi
  have hi' : (v.maps i.1 i.2).bind MemoryEntry.held = some v.next := hi
  cases he : v.maps i.1 i.2 with
  | none => rw [he] at hi'; cases hi'
  | some e =>
      rw [he] at hi'
      exact absurd (h.lt he hi') (Nat.lt_irrefl _)

/-- The mapping is placed in the slot. -/
theorem replaced_fileMapping (hold : ∀ x, v.maps p a = some x → x.held = none)
    (g : MemoryFilePage) (shared : Bool) :
    Replaced v p a (.fileMemory g shared) g.page (v.pages g.page)
      ((v.map p a g.page g.flags).setPageMapping p a (.fileMemory g shared)) :=
  replaced_setPageMapping hold g.page g.flags (.fileMemory g shared) rfl

theorem fileFault_cached (m : Machine) {f : FilePage} {d : PagePtr}
    (he : v.maps p a = some (.file f)) (hc : v.sharedPages f.file (fileOffset f a) = some d)
    (code frame : Nat) (mem : Nat → Bytes) :
    Fault m v p a code frame mem (v.fileFault m p a frame f mem).1
      (v.fileFault m p a frame f mem).2 := by
  have hresolve : v.resolveMapping m f a frame mem = (some d, v) := by
    unfold Space.resolveMapping
    dsimp only
    rw [show v.sharedPages f.file ((a - f.startAddr + f.offset) % 2 ^ 52) = some d from hc]
  unfold Space.fileFault
  rw [hresolve]
  dsimp only
  by_cases haddr : (v.pages d).addr = 0
  · rw [if_pos haddr]
    exact Fault.nothing (by simp)
  · rw [if_neg haddr]
    have hpl := replaced_fileMapping (v := v) (p := p) (a := a) (by
      intro x hx
      rw [he] at hx
      rw [← Option.some.inj hx]
      rfl) (v.resolvedMapping f a d) f.shared
    rw [resolvedMapping_page] at hpl
    have hkeep := setPageMapping_frame (v.map p a d (v.resolvedMapping f a d).flags) p a
      (.fileMemory (v.resolvedMapping f a d) f.shared)
    exact Fault.cached he hc haddr hpl hkeep.1 ⟨hkeep.2.1, hkeep.2.2.1, hkeep.2.2.2⟩

theorem fileFault_read (m : Machine) (h : Good v) {f : FilePage} {bytes : Bytes}
    (he : v.maps p a = some (.file f)) (hc : v.sharedPages f.file (fileOffset f a) = none)
    (hread : m.readFile f.file (fileOffset f a) = some bytes) (code frame : Nat)
    (mem : Nat → Bytes) :
    Fault m v p a code frame mem (v.fileFault m p a frame f mem).1
      (v.fileFault m p a frame f mem).2 := by
  let flags := PageFlags.of true true false false true false
  let v₁ := ((v.newPage (.file f.file (fileOffset f a)) frame (mem frame)).setFlags v.next
    flags).setBytes v.next bytes
  let v₂ := if f.shared then v₁.setSharedPage f.file (fileOffset f a) (some v.next) else v₁
  have hresolve : v.resolveMapping m f a frame mem = (some v.next, v₂) := by
    unfold Space.resolveMapping
    dsimp only
    rw [show v.sharedPages f.file ((a - f.startAddr + f.offset) % 2 ^ 52) = none from hc,
      show m.readFile f.file ((a - f.startAddr + f.offset) % 2 ^ 52) = some bytes from hread]
    rfl
  have hr₁ : Resolved v (.file f.file (fileOffset f a)) frame flags v₁ :=
    ((resolved_bare v _ frame (mem frame)).setFlags flags).setBytes bytes
  have hbytes : (v₁.pages v.next).bytes = bytes := by
    show ((Space.setBytes _ v.next bytes).pages v.next).bytes = bytes
    unfold Space.setBytes
    rw [modifyPage_pages, if_pos rfl]
  have hr₂ : Resolved v (.file f.file (fileOffset f a)) frame flags v₂ := by
    show Resolved v _ frame flags
      (if f.shared then v₁.setSharedPage f.file (fileOffset f a) (some v.next) else v₁)
    split
    · exact ⟨hr₁.maps, hr₁.table, hr₁.status, hr₁.next, hr₁.anons, hr₁.old, hr₁.kind, hr₁.addr,
        hr₁.flags, hr₁.copyOnWrite⟩
    · exact hr₁
  have hpages : v₂.pages = v₁.pages := by
    show (if f.shared then v₁.setSharedPage f.file (fileOffset f a) (some v.next) else v₁).pages = _
    split <;> rfl
  have hcache : v₂.sharedPages = (if f.shared then
      (v.setSharedPage f.file (fileOffset f a) (some v.next)).sharedPages else v.sharedPages) := by
    show (if f.shared then v₁.setSharedPage f.file (fileOffset f a) (some v.next)
      else v₁).sharedPages = _
    split <;> rfl
  have hD : v₂.pages v.next = ⟨.file f.file (fileOffset f a), frame, flags, false, bytes⟩ := by
    rw [hpages]
    exact hr₁.page_eq hbytes
  unfold Space.fileFault
  rw [hresolve]
  dsimp only
  rw [hr₂.addr]
  by_cases hframe : frame = 0
  · rw [if_pos hframe]
    refine Fault.failed hframe ?_ hr₂.maps hr₂.table hr₂.status hr₂.old
    have h₁ : Good v₁ := h.resolved hr₁ rfl
    apply h₁.extend (Extends.of_eq (hr₂.next.trans hr₁.next.symm) hpages
      (hr₂.anons.trans hr₁.anons.symm)) _ (hr₂.maps.trans hr₁.maps.symm)
      (hr₂.table.trans hr₁.table.symm) (fun d _ => by rw [hpages])
    show PagesOk
      (if f.shared then v₁.setSharedPage f.file (fileOffset f a) (some v.next) else v₁)
    split
    · apply h₁.pagesOk.setSharedPage
      intro x hx
      rw [← Option.some.inj hx, hr₁.next]
      exact ⟨Nat.lt_succ_self _, hr₁.kind⟩
    · exact h₁.pagesOk
  · rw [if_neg hframe]
    -- nobody maps the new page, so it is not shared yet
    have hmapping : v₂.resolvedMapping f a v.next
        = ⟨f.file, v.next, a - f.startAddr, false, f.flags⟩ := by
      unfold Space.resolvedMapping
      have hreaders : v₂.readers v.next = 0 := by
        show refs (mapped v₂.maps) v.next = 0
        rw [hr₂.maps]
        exact h.readers_next
      rw [hreaders, if_neg (by simp)]
    rw [hmapping]
    have hpl := hr₂.replaced (replaced_fileMapping (v := v₂) (p := p) (a := a) (by
      intro x hx
      rw [hr₂.maps, he] at hx
      rw [← Option.some.inj hx]
      rfl) ⟨f.file, v.next, a - f.startAddr, false, f.flags⟩ f.shared)
    have hkeep := setPageMapping_frame (v₂.map p a v.next f.flags) p a
      (.fileMemory ⟨f.file, v.next, a - f.startAddr, false, f.flags⟩ f.shared)
    exact Fault.read he hc hread hframe (hpl.congr_page hD) (hkeep.1.trans hr₂.next)
      (hkeep.2.1.trans hr₂.anons) (hkeep.2.2.2.trans hr₂.status) (hkeep.2.2.1.trans hcache)

theorem fileFault_cases (m : Machine) (h : Good v) {f : FilePage} (he : v.maps p a = some (.file f))
    (code frame : Nat) (mem : Nat → Bytes) :
    Fault m v p a code frame mem (v.fileFault m p a frame f mem).1
      (v.fileFault m p a frame f mem).2 := by
  cases hc : v.sharedPages f.file (fileOffset f a) with
  | some d => exact fileFault_cached m he hc code frame mem
  | none =>
      cases hread : m.readFile f.file (fileOffset f a) with
      | some bytes => exact fileFault_read m h he hc hread code frame mem
      | none =>
          have hresolve : v.resolveMapping m f a frame mem = (none, v) := by
            unfold Space.resolveMapping
            dsimp only
            rw [show v.sharedPages f.file ((a - f.startAddr + f.offset) % 2 ^ 52) = none from hc,
              show m.readFile f.file ((a - f.startAddr + f.offset) % 2 ^ 52) = none from hread]
          unfold Space.fileFault
          rw [hresolve]
          exact Fault.nothing (by simp)

theorem fileMemoryFault_cases (m : Machine) (h : Good v) {f : MemoryFilePage} {shared : Bool}
    (he : v.maps p a = some (.fileMemory f shared)) (code frame : Nat) (mem : Nat → Bytes) :
    Fault m v p a code frame mem (v.fileMemoryFault p a code frame f shared mem).1
      (v.fileMemoryFault p a code frame f shared mem).2 := by
  unfold Space.fileMemoryFault
  by_cases hw : code.testBit 1 = true ∧ f.copyOnWrite = true
  · rw [if_pos hw]
    by_cases hone : v.readers f.page > 1
    · rw [if_pos hone]
      have h₁ := resolved_bare v (v.pages f.page).kind frame (mem frame)
      unfold Space.copyFile
      dsimp only
      rw [show (v.newPage (v.pages f.page).kind frame (mem frame)).table p 0 = v.table p 0 from rfl]
      cases htable : v.table p 0 with
      | none => exact Fault.fileCopyHalt he hw.1 hw.2 hone htable h₁ ⟨rfl, rfl, rfl⟩
      | some te =>
          obtain ⟨x, flags⟩ := te
          dsimp only
          obtain ⟨e, hx, hxe⟩ := h.table_held htable
          have hxn : x ≠ v.next := Nat.ne_of_lt (h.lt hx hxe)
          rw [h₁.old x hxn]
          have h₂ := h₁.setBytes (mem (v.pages x).addr)
          have hpl := h₂.setEntry (p := p) (a := a) { f.flags with writable := true }
            (.fileMemory ⟨f.file, v.next, f.offset, false, { f.flags with writable := true }⟩ shared)
            rfl
          have hbytes : (((v.newPage (v.pages f.page).kind frame (mem frame)).setBytes v.next
              (mem (v.pages x).addr)).pages v.next).bytes = mem (v.pages x).addr := by
            unfold Space.setBytes
            rw [modifyPage_pages, if_pos rfl]
          exact Fault.fileCopy he hw.1 hw.2 hone htable (hpl.congr_page (h₂.page_eq hbytes)) rfl
            ⟨rfl, rfl, rfl⟩
    · rw [if_neg hone]
      have hpl := replaced_setEntry (v.setSharedPage f.file f.offset none) p a f.page
        { f.flags with writable := true }
        (.fileMemory ⟨f.file, f.page, f.offset, false, { f.flags with writable := true }⟩ shared) rfl
      exact Fault.steal he hw.1 hw.2 (Nat.le_of_not_gt hone)
        ⟨hpl.maps, hpl.table, hpl.page, hpl.old, hpl.next⟩ rfl rfl rfl rfl
  · rw [if_neg hw]
    exact Fault.nothing (by simp)

/-- **`handle_page_fault` has one of these outcomes.** -/
theorem handlePageFault_cases (m : Machine) (h : Good v) (p addr code frame : Nat)
    (mem : Nat → Bytes) :
    Fault m v p (addr / 2 ^ 12) code frame mem (v.handlePageFault m p addr code frame mem).1
      (v.handlePageFault m p addr code frame mem).2 := by
  unfold Space.handlePageFault
  split
  · exact Fault.nothing (by simp)
  · dsimp only
    cases he : v.maps p (addr / 2 ^ 12) with
    | none => exact Fault.nothing (by simp)
    | some e =>
        cases e with
        | memory d shared => exact memoryFault_cases m h he code frame mem
        | empty => exact Fault.nothing (by simp)
        | anonymous flags zero => exact anonymousFault_cases m h he code frame mem
        | sharedAnonymous o => exact sharedFault_cases m h he code frame mem
        | file f => exact fileFault_cases m h he code frame mem
        | fileMemory f shared => exact fileMemoryFault_cases m h he code frame mem

end Space

end MierOS.Tasking
