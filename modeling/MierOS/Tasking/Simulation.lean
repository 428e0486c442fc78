/-
  MierOS.Tasking.Simulation
  **EVERY OPERATION OF THE KERNEL IS ONE OF THE ADDRESS SPACES.**

  The operations of `Tasking.ProcessMemory` are followed primitive by primitive
  (`Tasking.Refinement`).  The differences `T`, `R`, `A` are what the code holds
  in locals at that point: `T` after a copy, `R` between `ref()` and the entry
  that it is for.

  Main results: `Sim.step`, `Sim.run`.
-/
import MierOS.Lib.Run
import MierOS.Tasking.Refinement

namespace MierOS.Tasking

open Memory.Virtual
open Lib.Refs
open Lib (Run)

variable {s s' : Kernel} {v : Space} {T T' R R' : PagePtr → Int} {A A' : AnonPtr → Int} {p a : Nat}

/-! ## §1. One entry. -/

/-- A page that a local holds is alive. -/
theorem Sim.local_live (h : Sim s v T R A) {d : PagePtr} (hd : 0 < T d) :
    ∃ D, s.pages d = some D := by
  apply h.live
  omega

theorem Sim.destroyLocal (h : Sim s v T R A) {d : PagePtr} (hd : 0 < T d) :
    Sim (s.destroyPage d) v (T - tally (some d)) R A := by
  apply h.destroyPage
  omega

/-- `unref` of the page of an entry. -/
theorem Sim.unrefSlot (h : Sim s v T R A) {e : MemoryEntry} {d : PagePtr}
    (he : v.maps p a = some e) (hed : e.held = some d) (hT : 0 ≤ T d) (hR : 0 ≤ R d) :
    Sim (s.unrefPage d) v T (R - tally (some d)) A := by
  have hslot : s.holder (.slot p a) = some d := by rw [h.holder_slot he, hed]
  have hheld := refs_pos h.accounted.holderFinite hslot
  have hmapped : 0 < refs (mapped s.maps) d :=
    refs_pos h.accounted.mappedFinite (i := (p, a)) hslot
  obtain ⟨D, hd⟩ := h.live (d := d) (by omega)
  exact h.unrefPage hd (by omega)

theorem eraseEntry_eq {e : MemoryEntry} (he : s.maps p a = some e) :
    s.eraseEntry p a = (s.setEntry p a none).dropEntry e := by
  unfold Kernel.eraseEntry
  have he' : (s.procs p).memorymap a = some e := he
  rw [he']

theorem Sim.eraseEntry_eq (h : Sim s v T R A) {e : MemoryEntry} (he : v.maps p a = some e) :
    s.eraseEntry p a = (s.setEntry p a none).dropEntry e :=
  Tasking.eraseEntry_eq (by rw [← h.maps, he])

/-- **`f_memorymap.erase`**, of an entry whose mapping has been taken off the
counts already. -/
theorem Sim.eraseMemory (h : Sim s v T R A) (hp : v.status p ≠ .absent) (hT : ∀ d, 0 ≤ T d)
    {d : PagePtr} {shared : Bool} (he : v.maps p a = some (.memory d shared)) :
    Sim (s.eraseEntry p a) (v.setEntry p a none) T (R + tally (some d)) A := by
  rw [h.eraseEntry_eq he]
  have h₁ := h.writeEntry hp he none
  have h₂ := h₁.destroyLocal (d := d) (by
    show (0 : Int) < T d + tally (some d) d - 0
    have := hT d
    rw [tally_self]
    omega)
  exact h₂.of_eq (by simp [MemoryEntry.held]) (by simp [MemoryEntry.held])
    (by simp [MemoryEntry.sharedPtr])

theorem Sim.eraseFileMemory (h : Sim s v T R A) (hp : v.status p ≠ .absent) (hT : ∀ d, 0 ≤ T d)
    (hR : ∀ d, 0 ≤ R d) {f : MemoryFilePage} {shared : Bool}
    (he : v.maps p a = some (.fileMemory f shared)) :
    Sim (s.eraseEntry p a) (v.setEntry p a none) T R A := by
  rw [h.eraseEntry_eq he]
  have hT' := hT f.page
  have hR' := hR f.page
  have h₁ := h.writeEntry hp he none
  have hpos : (0 : Int) < T f.page + tally (some f.page) f.page - 0 := by
    rw [tally_self]
    omega
  -- `~MemoryFilePage`
  obtain ⟨D, hd⟩ := h₁.local_live (d := f.page) hpos
  have h₂ := h₁.unrefPage hd (by
    show (0 : Int) < _ + (R f.page + tally (some f.page) f.page - 0)
    rw [tally_self]
    omega)
  have h₃ := h₂.destroyLocal (d := f.page) hpos
  exact h₃.of_eq (by simp [MemoryEntry.held]) (by simp [MemoryEntry.held])
    (by simp [MemoryEntry.sharedPtr])

theorem Sim.eraseSharedAnonymous (h : Sim s v T R A) (hp : v.status p ≠ .absent)
    (hT : ∀ d, 0 ≤ T d) (hA : ∀ o, 0 ≤ A o) {o : AnonPtr}
    (he : v.maps p a = some (.sharedAnonymous o)) :
    Sim (s.eraseEntry p a) (v.setEntry p a none) T R A := by
  rw [h.eraseEntry_eq he]
  have hA' := hA o
  have h₁ := h.writeEntry hp he none
  have h₂ : Sim (s.setEntry p a none) (v.setEntry p a none) T R (A + tally (some o)) :=
    h₁.of_eq (by simp [MemoryEntry.held]) (by simp [MemoryEntry.held])
      (by simp [MemoryEntry.sharedPtr])
  have h₃ := h₂.dropAnon hT (o := o) (by
    rw [Pi.add_apply, tally_self]
    omega)
  exact h₃.of_eq rfl rfl (by simp)

theorem Sim.eraseUnresolved (h : Sim s v T R A) (hp : v.status p ≠ .absent) {e : MemoryEntry}
    (he : v.maps p a = some e) (hheld : e.held = none) (hshared : e.sharedPtr = none) :
    Sim (s.eraseEntry p a) (v.setEntry p a none) T R A := by
  rw [h.eraseEntry_eq he]
  have hdrop : (s.setEntry p a none).dropEntry e = s.setEntry p a none := by
    cases e with
    | memory d shared => cases hheld
    | fileMemory f shared => cases hheld
    | sharedAnonymous o => cases hshared
    | anonymous flags zero => rfl
    | file f => rfl
    | empty => rfl
  rw [hdrop]
  have h₁ := h.writeEntry hp he none
  exact h₁.of_eq (by simp [hheld]) (by simp [hheld]) (by simp [hshared])

theorem Sim.unmapPage (h : Sim s v T R A) (hp : v.status p ≠ .absent) (hT : ∀ d, 0 ≤ T d)
    (hR : ∀ d, 0 ≤ R d) (hA : ∀ o, 0 ≤ A o) :
    Sim (s.unmapPage p a) (v.unmapPage p a) T R A := by
  have hs : (s.procs p).memorymap a = v.maps p a := by
    rw [h.maps]
    rfl
  unfold Kernel.unmapPage Space.unmapPage
  rw [hs]
  cases he : v.maps p a with
  | none => exact h
  | some e =>
      cases e with
      | memory d shared =>
          -- `unref` comes before the entry goes
          have h₁ := h.unmap (a := a) hp
          have h₂ := h₁.unrefSlot he rfl (hT d) (hR d)
          have h₃ := h₂.eraseMemory hp hT he
          exact h₃.of_eq rfl (by simp) rfl
      | fileMemory f shared => exact (h.unmap (a := a) hp).eraseFileMemory hp hT hR he
      | sharedAnonymous o => exact h.eraseSharedAnonymous hp hT hA he
      | anonymous flags zero => exact h.eraseUnresolved hp he rfl rfl
      | file f => exact h.eraseUnresolved hp he rfl rfl
      | empty => exact h.eraseUnresolved hp he rfl rfl

theorem Space.maps_unmapPage (v : Space) (p a : Nat) :
    (v.unmapPage p a).maps = v.maps.set p a none := by
  unfold Space.unmapPage
  cases he : v.maps p a with
  | none =>
      funext q b
      rw [Maps.set_apply]
      by_cases hqb : q = p ∧ b = a
      · rw [if_pos hqb, hqb.1, hqb.2]
        exact he
      · rw [if_neg hqb]
  | some e =>
      dsimp only
      split <;> rfl

theorem Space.status_unmapPage (v : Space) (p a : Nat) : (v.unmapPage p a).status = v.status := by
  unfold Space.unmapPage
  cases v.maps p a with
  | none => rfl
  | some e =>
      dsimp only
      split <;> rfl

theorem Sim.anon_live (h : Sim s v T R A) {o : AnonPtr}
    (ho : 0 < (refs (sharers s.maps) o : Int) + A o) : ∃ O, s.anons o = some O := by
  cases hO : s.anons o with
  | none =>
      have hdead := h.accounted.deadAnons o hO
      omega
  | some O => exact ⟨O, rfl⟩

/-- **`f_memorymap.insert`**, at an address with no entry. -/
theorem Sim.insertEntry (h : Sim s v T R A) (hp : v.status p ≠ .absent) (hnone : v.maps p a = none)
    (e : MemoryEntry)
    (he : ∀ o, e.sharedPtr = some o → 0 < (refs (sharers s.maps) o : Int) + A o) :
    Sim (s.insertEntry p a e) (v.setEntry p a (some e)) (T - tally e.held) (R - tally e.held) A := by
  have hplain : e.sharedPtr = none →
      Sim (s.setEntry p a (some e)) (v.setEntry p a (some e)) (T - tally e.held) (R - tally e.held)
        A := by
    intro hshared
    have h₁ := h.writeEntry hp hnone (some e)
    exact h₁.of_eq (by simp) (by simp) (by simp [hshared])
  cases e with
  | sharedAnonymous o =>
      obtain ⟨O, hO⟩ := h.anon_live (he o rfl)
      have h₁ := (h.refAnon hO).writeEntry hp hnone (some (.sharedAnonymous o))
      exact h₁.of_eq (by simp [MemoryEntry.held]) (by simp [MemoryEntry.held])
        (by simp [MemoryEntry.sharedPtr])
  | memory d shared => exact hplain rfl
  | fileMemory f shared => exact hplain rfl
  | anonymous flags zero => exact hplain rfl
  | file f => exact hplain rfl
  | empty => exact hplain rfl

/-- **`set_page_mapping`**: the entry takes over what the caller holds for it. -/
theorem Sim.setPageMapping (h : Sim s v T R A) (hp : v.status p ≠ .absent) (hT : ∀ d, 0 ≤ T d)
    (hR : ∀ d, 0 ≤ R d) (hA : ∀ o, 0 ≤ A o) (e : MemoryEntry)
    (he : ∀ o, e.sharedPtr = some o → 0 < A o) :
    Sim (s.setPageMapping p a e) (v.setPageMapping p a e) (T - tally e.held) (R - tally e.held)
      A := by
  have hs : (s.procs p).memorymap a = v.maps p a := by
    rw [h.maps]
    rfl
  have h₁ : Sim (if ((s.procs p).memorymap a).isSome then s.unmapPage p a else s)
      (v.unmapPage p a) T R A := by
    split
    · exact h.unmapPage hp hT hR hA
    · rename_i hnone
      have hv : v.unmapPage p a = v := by
        unfold Space.unmapPage
        rw [hs] at hnone
        rw [Option.not_isSome_iff_eq_none.mp hnone]
      rw [hv]
      exact h
  apply h₁.insertEntry
  · rw [Space.status_unmapPage]
    exact hp
  · rw [Space.maps_unmapPage, Maps.set_self]
  · intro o ho
    have := he o ho
    omega

theorem nonneg_add_tally {α : Type} [DecidableEq α] {T : α → Int} (hT : ∀ d, 0 ≤ T d)
    (o : Option α) : ∀ d, 0 ≤ (T + tally o) d := by
  intro d
  have hd := hT d
  have ho := tally_nonneg o d
  show 0 ≤ T d + tally o d
  omega

theorem pos_add_tally {α : Type} [DecidableEq α] {T : α → Int} (hT : ∀ d, 0 ≤ T d) (d : α) :
    0 < (T + tally (some d)) d := by
  have hd := hT d
  show 0 < T d + tally (some d) d
  rw [tally_self]
  omega

/-- **`map_page`**. -/
theorem Sim.mapPage (h : Sim s v T R A) (hp : v.status p ≠ .absent) (hT : ∀ d, 0 ≤ T d)
    (hR : ∀ d, 0 ≤ R d) (hA : ∀ o, 0 ≤ A o) {d : PagePtr} {D : PageData}
    (hd : s.pages d = some D) (shared : Bool) :
    Sim (s.mapPage p a d shared) (v.mapPage p a d shared) T R A := by
  have h₁ := h.refPage hd
  have hd₁ : (s.refPage d).pages d = some { D with refCount := D.refCount + 1 } := by
    show Function.update s.pages d ((s.pages d).map _) d = _
    rw [Function.update_self, hd]
    rfl
  have h₂ := h₁.map (a := a) hp hd₁ (h₁.flags_eq hd₁)
  have h₃ := h₂.copyPage hd₁
  have h₄ := h₃.setPageMapping (a := a) hp (nonneg_add_tally hT _) (nonneg_add_tally hR _) hA
    (.memory d shared) (fun o ho => by cases ho)
  exact h₄.of_eq (by simp [MemoryEntry.held]) (by simp [MemoryEntry.held]) rfl

/-! ## §2. Ranges of pages. -/

/-- **The same loop on both sides.** -/
theorem Sim.foldl {f : Kernel → Nat → Kernel} {g : Space → Nat → Space} (P : Space → Prop)
    (hstep : ∀ s v x, Sim s v 0 0 0 → P v → Sim (f s x) (g v x) 0 0 0 ∧ P (g v x)) (l : List Nat) :
    ∀ s v, Sim s v 0 0 0 → P v → Sim (l.foldl f s) (l.foldl g v) 0 0 0 := by
  induction l with
  | nil =>
      intro s v h _
      exact h
  | cons x l ih =>
      intro s v h hP
      have hx := hstep s v x h hP
      exact ih (f s x) (g v x) hx.1 hx.2

theorem zero_nonneg {α : Type} : ∀ d : α, 0 ≤ (0 : α → Int) d := fun _ => Int.le_refl 0

theorem Space.status_setPageMapping (v : Space) (p a : Nat) (e : MemoryEntry) :
    (v.setPageMapping p a e).status = v.status :=
  Space.status_unmapPage v p a

/-- A range of entries that hold nothing. -/
theorem Sim.setRange (h : Sim s v 0 0 0) (hp : v.status p ≠ .absent) (l : List Nat)
    (e : MemoryEntry) (hheld : e.held = none) (hshared : e.sharedPtr = none) :
    Sim (l.foldl (fun s x => s.setPageMapping p x e) s)
      (l.foldl (fun v x => v.setPageMapping p x e) v) 0 0 0 := by
  apply Sim.foldl (fun v => v.status p ≠ .absent) _ l s v h hp
  intro s v x h hp
  have h₁ := h.setPageMapping (a := x) hp zero_nonneg zero_nonneg zero_nonneg e
    (fun o ho => by rw [hshared] at ho; cases ho)
  refine ⟨h₁.of_eq (by simp [hheld]) (by simp [hheld]) rfl, ?_⟩
  rw [Space.status_setPageMapping]
  exact hp

theorem Sim.allocShared (h : Sim s v 0 0 0) (hp : v.status p ≠ .absent) (x : Nat)
    (flags : PageFlags) (zero : Bool) :
    Sim (s.allocShared p x flags zero) (v.allocShared p x flags zero) 0 0 0 := by
  have h₁ := h.newAnon flags zero
  have h₂ := h₁.setPageMapping (a := x) hp zero_nonneg zero_nonneg (nonneg_add_tally zero_nonneg _)
    (.sharedAnonymous s.next) (by
      intro o ho
      rw [← Option.some.inj ho]
      exact pos_add_tally zero_nonneg s.next)
  -- the caller's own pointer ends
  have h₃ : Sim _ _ 0 0 ((0 : AnonPtr → Int) + tally (some s.next)) :=
    h₂.of_eq (by simp [MemoryEntry.held]) (by simp [MemoryEntry.held]) rfl
  have h₄ := h₃.dropAnon zero_nonneg (o := s.next) (by
    have := pos_add_tally (zero_nonneg (α := AnonPtr)) s.next
    omega)
  have hv : (v.newAnon flags zero).setPageMapping p x (.sharedAnonymous s.next)
      = v.allocShared p x flags zero := by
    rw [← h.next]
    rfl
  rw [hv] at h₄
  exact h₄.of_eq rfl rfl (by simp)

theorem Sim.nullPages (h : Sim s v 0 0 0) (hp : v.status p ≠ .absent) (n : Nat) :
    Sim (s.nullPages p a n) (v.nullPages p a n) 0 0 0 :=
  h.setRange hp _ .empty rfl rfl

theorem Sim.allocPages (h : Sim s v 0 0 0) (hp : v.status p ≠ .absent) (n flags prot : Nat) :
    Sim (s.allocPages p a n flags prot) (v.allocPages p a n flags prot) 0 0 0 := by
  unfold Kernel.allocPages Space.allocPages
  split
  · apply Sim.foldl (fun v => v.status p ≠ .absent) _ _ s v h hp
    intro s v x h hp
    refine ⟨h.allocShared hp x _ _, ?_⟩
    unfold Space.allocShared
    rw [Space.status_setPageMapping]
    exact hp
  · exact h.setRange hp _ _ rfl rfl

theorem Sim.filePages (h : Sim s v 0 0 0) (hp : v.status p ≠ .absent) (n file offset : Nat)
    (shared write execute : Bool) :
    Sim (s.filePages p a n file offset shared write execute)
      (v.filePages p a n file offset shared write execute) 0 0 0 :=
  h.setRange hp _ _ rfl rfl

theorem Sim.unmapPages (h : Sim s v 0 0 0) (hp : v.status p ≠ .absent) (n : Nat) :
    Sim (s.unmapPages p a n) (v.unmapPages p a n) 0 0 0 := by
  apply Sim.foldl (fun v => v.status p ≠ .absent) _ _ s v h hp
  intro s v x h hp
  refine ⟨h.unmapPage hp zero_nonneg zero_nonneg zero_nonneg, ?_⟩
  rw [Space.status_unmapPage]
  exact hp

/-! ## §3. Page faults. -/

/-- What the kernel reads, by what is mapped. -/
theorem Kernel.load_mapped {pte : Nat × PageFlags} (h : (s.procs p).pager a = some pte) :
    s.load p a = some (s.mem pte.1) := by
  unfold Kernel.load
  rw [h]
  rfl

theorem Kernel.load_unmapped (h : (s.procs p).pager a = none) : s.load p a = none := by
  unfold Kernel.load
  rw [h]
  rfl

theorem Sim.load (h : Sim s v T R A) (p a : Nat) :
    s.load p a = (v.table p a).map fun e => s.mem (v.pages e.1).addr := by
  unfold Kernel.load
  rw [h.table, Option.map_map]
  rfl

theorem Sim.load_mapped (h : Sim s v T R A) {te : PagePtr × PageFlags}
    (ht : v.table p a = some te) : s.load p a = some (s.mem (v.pages te.1).addr) := by
  rw [h.load, ht]
  rfl

theorem Sim.load_unmapped (h : Sim s v T R A) (ht : v.table p a = none) : s.load p a = none := by
  rw [h.load, ht]
  rfl

/-- The page of an entry is alive as long as nothing else has been given up. -/
theorem Sim.slot_live (h : Sim s v T R A) (hT : ∀ d, 0 ≤ T d) {e : MemoryEntry} {d : PagePtr}
    (he : v.maps p a = some e) (hed : e.held = some d) : ∃ D, s.pages d = some D :=
  h.held_live (i := .slot p a) hT (by rw [h.holder_slot he, hed])

theorem Sim.lt_next (h : Sim s v T R A) {d : PagePtr} {D : PageData} (hd : s.pages d = some D) :
    d < s.next := h.accounted.lt_next hd

/-- A handler on both sides: the same answer, related states. -/
def SimFault (x : FaultResult × Kernel) (y : FaultResult × Space) : Prop :=
  x.1 = y.1 ∧ Sim x.2 y.2 0 0 0

theorem not_absent (hp : v.status p = .running) : v.status p ≠ .absent := by
  rw [hp]
  simp

/-- The local copy of the new page is all that is left when the entry has
changed hands. -/
theorem replaced_balance (T n d : PagePtr → Int) : T + n - d + n + d - n = T + n := by
  funext x
  show T x + n x - d x + n x + d x - n x = T x + n x
  omega

theorem Sim.copyMemory (h : Sim s v 0 0 0) (hp : v.status p = .running) {d : PagePtr}
    {shared : Bool} (he : v.maps p a = some (.memory d shared)) {frame : Nat}
    (hframe : frame = 0 ∨ s.used frame = false) :
    SimFault (s.copyMemory p a d shared frame) (v.copyMemory p a d shared frame s.mem) := by
  have hp' := not_absent hp
  have hT : ∀ x, 0 ≤ ((0 : PagePtr → Int) + tally (some s.next)) x := nonneg_add_tally zero_nonneg _
  have hTn : 0 < ((0 : PagePtr → Int) + tally (some s.next)) s.next := pos_add_tally zero_nonneg _
  obtain ⟨D, hd⟩ := h.slot_live zero_nonneg he rfl
  have hdn : d ≠ s.next := Nat.ne_of_lt (h.lt_next hd)
  have h₁ := h.newPage hframe (v.pages d).kind
  have hload := h₁.load p a
  unfold Kernel.copyMemory Space.copyMemory
  rw [show s.newPage frame = (s.next, (s.newPage frame).2) from rfl]
  dsimp only
  rw [h.next, hload]
  cases hte : (v.newPage (v.pages d).kind frame (s.mem frame)).table p a with
  | none => exact ⟨rfl, (h₁.halt hp (some s.next)).of_eq (by simp) rfl rfl⟩
  | some te =>
      obtain ⟨D₁, hn₁⟩ := h₁.local_live hTn
      have h₂ := h₁.setFrame hn₁ (s.mem ((v.newPage (v.pages d).kind frame (s.mem frame)).pages
        te.1).addr)
      obtain ⟨D₂, hn₂⟩ := h₂.local_live hTn
      have h₃ := h₂.refPage hn₂
      obtain ⟨D₃, hn₃⟩ := h₃.local_live hTn
      obtain ⟨E₃, hd₃⟩ := h₃.slot_live hT he rfl
      have h₄ := h₃.setFlags hn₃ (congrArg (fun fl : PageFlags => { fl with writable := true })
        (h₃.flags_eq hd₃))
      obtain ⟨D₄, hn₄⟩ := h₄.local_live hTn
      have h₅ := h₄.map (a := a) hp' hn₄ (h₄.flags_eq hn₄)
      -- the entry still points to the old page
      have h₆ := h₅.unrefSlot he rfl (hT d) (nonneg_add_tally zero_nonneg _ d)
      have hheld := refs_pos h₆.accounted.holderFinite (h₆.holder_slot he)
      have h₇ := h₆.destroyPage (d := d) (by
        have := hT d
        omega)
      obtain ⟨D₇, hn₇⟩ := h₇.local_live (d := s.next) (by
        rw [sub_tally_of_ne _ d _ hdn.symm]
        exact hTn)
      have h₈ := h₇.copyPage hn₇
      have h₉ := h₈.writeEntry hp' he (some (.memory s.next shared))
      have h₁₀ : Sim _ _ ((0 : PagePtr → Int) + tally (some s.next)) 0 0 :=
        h₉.of_eq (replaced_balance 0 _ _) (by simp [MemoryEntry.held])
          (by simp [MemoryEntry.sharedPtr])
      have h₁₁ := h₁₀.destroyLocal hTn
      exact ⟨rfl, h₁₁.of_eq (by simp) rfl rfl⟩

theorem Sim.reenableMemory (h : Sim s v 0 0 0) (hp : v.status p = .running) {d : PagePtr}
    {shared : Bool} (he : v.maps p a = some (.memory d shared)) :
    Sim (s.reenableMemory p a d) (v.reenableMemory p a d) 0 0 0 := by
  obtain ⟨D, hd⟩ := h.slot_live zero_nonneg he rfl
  have h₁ := h.setCopyOnWrite hd false
  obtain ⟨D₁, hd₁⟩ := h₁.slot_live zero_nonneg he rfl
  have h₂ := h₁.setFlags hd₁ (congrArg (fun fl : PageFlags => { fl with writable := true })
    (h₁.flags_eq hd₁))
  obtain ⟨D₂, hd₂⟩ := h₂.slot_live zero_nonneg he rfl
  exact h₂.map (not_absent hp) hd₂ (h₂.flags_eq hd₂)

theorem Sim.memoryFault (h : Sim s v 0 0 0) (hp : v.status p = .running) {d : PagePtr}
    {shared : Bool} (he : v.maps p a = some (.memory d shared)) {code frame : Nat}
    (hframe : frame = 0 ∨ s.used frame = false) :
    SimFault (s.memoryFault p a code frame d shared)
      (v.memoryFault p a code frame d shared s.mem) := by
  obtain ⟨D, hd⟩ := h.slot_live zero_nonneg he rfl
  unfold Kernel.memoryFault Space.memoryFault
  rw [h.copyOnWrite_eq hd, h.refCount_eq hd]
  split
  · split
    · exact h.copyMemory hp he hframe
    · exact ⟨rfl, h.reenableMemory hp he⟩
  · split
    · exact ⟨rfl, h⟩
    · exact ⟨rfl, h⟩

/-- **`AnonymousPage::resolve`** returns a page that nobody else holds. -/
theorem Sim.resolveAnonymous (h : Sim s v T R A) (hT : ∀ d, 0 ≤ T d) {frame : Nat}
    (hframe : frame = 0 ∨ s.used frame = false) (kind : Kind) (flags : PageFlags) (zero : Bool) :
    Sim (s.resolveAnonymous flags zero frame).2 (v.resolveAnonymous kind flags zero frame s.mem)
      (T + tally (some s.next)) R A := by
  have hTn : 0 < (T + tally (some s.next)) s.next := pos_add_tally hT s.next
  have h₁ := h.newPage hframe kind
  obtain ⟨D₁, hn₁⟩ := h₁.local_live hTn
  have h₂ := h₁.setFlags hn₁ (rfl : flags = flags)
  obtain ⟨D₂, hn₂⟩ := h₂.local_live hTn
  have h₃ := h₂.setFrame hn₂ (fun _ => 0)
  unfold Kernel.resolveAnonymous Space.resolveAnonymous
  rw [show s.newPage frame = (s.next, (s.newPage frame).2) from rfl]
  dsimp only
  rw [h.next]
  split
  · exact h₃
  · exact h₂

theorem Space.pages_setPageMapping (v : Space) (p a : Nat) (e : MemoryEntry) :
    (v.setPageMapping p a e).pages = v.pages := by
  unfold Space.setPageMapping Space.unmapPage
  cases v.maps p a with
  | none => rfl
  | some e =>
      show (if e.held.isSome then v.setTable p a none else v).pages = v.pages
      split <;> rfl

/-- Nothing is unmapped when the entry held nothing. -/
theorem Space.table_setPageMapping (v : Space) {p a : Nat} (e : MemoryEntry)
    (hold : ∀ x, v.maps p a = some x → x.held = none) :
    (v.setPageMapping p a e).table = v.table := by
  unfold Space.setPageMapping Space.unmapPage
  cases hx : v.maps p a with
  | none => rfl
  | some x =>
      show (if x.held.isSome then v.setTable p a none else v).table = v.table
      rw [hold x hx]
      rfl

theorem Sim.anonymousFault (m : Machine) {d : PagePtr} (h : Sim s v (0 + tally (some d)) 0 0)
    (hp : v.status p = .running) {e : MemoryEntry} (he : v.maps p a = some e)
    (hheld : e.held = none) (shared : Bool) :
    SimFault (s.anonymousFault m p a d shared) (v.anonymousFault m p a d shared) := by
  have hT : ∀ x, 0 ≤ ((0 : PagePtr → Int) + tally (some d)) x := nonneg_add_tally zero_nonneg _
  have hTd : 0 < ((0 : PagePtr → Int) + tally (some d)) d := pos_add_tally zero_nonneg _
  have hp' := not_absent hp
  obtain ⟨D, hd⟩ := h.local_live hTd
  unfold Kernel.anonymousFault Space.anonymousFault
  rw [h.addr_eq hd]
  split
  · exact ⟨rfl, (h.destroyLocal hTd).of_eq (by simp) rfl rfl⟩
  · have h₁ := h.mapPage (a := a) hp' hT zero_nonneg zero_nonneg hd shared
    obtain ⟨D₁, hd₁⟩ := h₁.local_live hTd
    have hpages : (v.mapPage p a d shared).pages = v.pages := Space.pages_setPageMapping _ _ _ _
    have htable : (v.mapPage p a d shared).table p a
        = some (d, { (v.pages d).flags with present := true }) := by
      unfold Space.mapPage
      rw [Space.table_setPageMapping]
      · unfold Space.map
        rw [Space.table_setTable, if_pos ⟨rfl, rfl⟩]
      · intro x hx
        have hx' : v.maps p a = some x := hx
        rw [he] at hx'
        rw [← Option.some.inj hx', hheld]
    have hpager : ((s.mapPage p a d shared).procs p).pager a
        = some (((s.mapPage p a d shared).page d).addr,
          { (v.pages d).flags with present := true }) := by
      rw [h₁.table, htable, h₁.addr_eq hd₁]
      rfl
    dsimp only
    unfold Kernel.store
    rw [hpager]
    dsimp only [Option.bind]
    rw [hpages]
    by_cases hw : (v.pages d).flags.writable = true ∨ m.wp = false
    · rw [if_pos hw, if_pos hw]
      have h₂ := h₁.setFrame hd₁ (fun _ => 0)
      exact ⟨rfl, (h₂.destroyLocal hTd).of_eq (by simp) rfl rfl⟩
    · rw [if_neg hw, if_neg hw]
      have hp₁ : (v.mapPage p a d shared).status p = .running := by
        unfold Space.mapPage
        rw [Space.status_setPageMapping]
        exact hp
      exact ⟨rfl, (h₁.halt hp₁ (some d)).of_eq (by simp) rfl rfl⟩

theorem anon_eq {o : AnonPtr} {O : SharedAnonymousPage} (ho : s.anons o = some O) :
    s.anon o = O := by
  unfold Kernel.anon
  rw [ho]
  rfl

theorem resolveAnonymous_anons (s : Kernel) (flags : PageFlags) (zero : Bool) (frame : Nat) :
    (s.resolveAnonymous flags zero frame).2.anons = s.anons := by
  unfold Kernel.resolveAnonymous
  rw [show s.newPage frame = (s.next, (s.newPage frame).2) from rfl]
  dsimp only
  split <;> rfl

/-- A local page becomes the page of a shared anonymous entry. -/
theorem Sim.assignAnonPage (h : Sim s v T R A) (hT : ∀ d, 0 ≤ T d) {o : AnonPtr}
    {O : SharedAnonymousPage} (ho : s.anons o = some O) {d : PagePtr} (hd : 0 < T d) :
    Sim (s.assignAnonPage o d) (v.setAnonPage o d) T R A
      ∧ (s.assignAnonPage o d).anons o = some { O with page := some d } := by
  -- the rest of the assignment, once the old page has been given up
  have hrest : ∀ x : Kernel, x.anons o = some O → Sim x v (T - tally O.page) R A →
      Sim ((x.setAnonPage o d).copyPage d) (v.setAnonPage o d) T R A
        ∧ ((x.setAnonPage o d).copyPage d).anons o = some { O with page := some d } := by
    intro x hx hsim
    have hself : (x.setAnonPage o d).anons o = some { O with page := some d } := by
      show Function.update x.anons o ((x.anons o).map _) o = _
      rw [Function.update_self, hx]
      rfl
    have h₁ : Sim _ _ (T - tally (some d)) R A :=
      (hsim.setAnonPage hx d).of_eq (by simp) rfl rfl
    obtain ⟨D, hD⟩ := h₁.held_live (i := .anon o) (d := d)
      (by
        intro y
        have hy := hT y
        by_cases hyd : y = d
        · subst hyd
          rw [Pi.sub_apply, tally_self]
          omega
        · rw [sub_tally_of_ne T d y hyd]
          exact hy)
      (holder_anon hself)
    exact ⟨(h₁.copyPage hD).of_eq (by simp) rfl rfl, hself⟩
  unfold Kernel.assignAnonPage
  rw [anon_eq ho]
  cases hpage : O.page with
  | none =>
      apply hrest s ho
      exact h.of_eq (by simp [hpage]) rfl rfl
  | some d' =>
      have hheld := refs_pos h.accounted.holderFinite (i := .anon o) (a := d')
        (by rw [holder_anon ho, hpage])
      have hd' := hT d'
      apply hrest
      · rw [(destroyPage_frame _ d').2.1]
        exact ho
      · rw [hpage]
        exact h.destroyPage (by omega)

/-- **The first resolve of a shared anonymous page** leaves the page with it. -/
theorem Sim.resolveFresh (h : Sim s v 0 0 0) {o : AnonPtr} {O : SharedAnonymousPage}
    (ho : s.anons o = some O) {frame : Nat} (hframe : frame = 0 ∨ s.used frame = false) :
    Sim (s.resolveFresh o frame) (v.resolveFresh o frame s.mem) 0 0 0
      ∧ ∃ O', (s.resolveFresh o frame).anons o = some O' ∧ O'.page = some s.next := by
  have hold := h.anons o O ho
  have hT : ∀ x, 0 ≤ ((0 : PagePtr → Int) + tally (some s.next)) x := nonneg_add_tally zero_nonneg _
  have hTn : 0 < ((0 : PagePtr → Int) + tally (some s.next)) s.next := pos_add_tally zero_nonneg _
  have h₁ := h.resolveAnonymous zero_nonneg hframe (.shared o) O.flags O.zero
  have ho₁ : (s.resolveAnonymous O.flags O.zero frame).2.anons o = some O := by
    rw [resolveAnonymous_anons]
    exact ho
  obtain ⟨h₂, ho₂⟩ := h₁.assignAnonPage hT ho₁ hTn
  have h₃ := h₂.destroyLocal hTn
  unfold Kernel.resolveFresh Space.resolveFresh
  rw [anon_eq ho, hold.1, hold.2.1, h.next]
  refine ⟨h₃.of_eq (by simp) rfl rfl, ⟨{ O with page := some s.next }, ?_, rfl⟩⟩
  show (((s.resolveAnonymous O.flags O.zero frame).2.assignAnonPage o s.next).destroyPage
    s.next).anons o = _
  rw [(destroyPage_frame _ _).2.1]
  exact ho₂

/-- **`SharedAnonymousPage::resolve`** returns another object for the page. -/
theorem Sim.resolveShared (h : Sim s v 0 0 0) {o : AnonPtr} {O : SharedAnonymousPage}
    (ho : s.anons o = some O) {frame : Nat} (hframe : frame = 0 ∨ s.used frame = false) :
    (s.resolveShared o frame).1 = ((v.resolveShared o frame s.mem).anons o).page.getD 0
      ∧ Sim (s.resolveShared o frame).2 (v.resolveShared o frame s.mem)
        (0 + tally (some (s.resolveShared o frame).1)) 0 0 := by
  -- once the entry has a page
  have hpage : ∀ (x : Kernel) (y : Space) (X : SharedAnonymousPage) (d : PagePtr),
      Sim x y 0 0 0 → x.anons o = some X → X.page = some d →
      (x.anon o).page.getD 0 = (y.anons o).page.getD 0
        ∧ Sim (x.copyPage ((x.anon o).page.getD 0)) y
          (0 + tally (some ((x.anon o).page.getD 0))) 0 0 := by
    intro x y X d hxy hX hd
    rw [anon_eq hX, (hxy.anons o X hX).2.2, hd]
    obtain ⟨D, hD⟩ := hxy.held_live (i := .anon o) (d := d) zero_nonneg
      (by rw [holder_anon hX, hd])
    exact ⟨rfl, hxy.copyPage hD⟩
  have hnull : s.isNull (s.anon o).page = v.isNull (v.anons o).page := by
    rw [anon_eq ho, (h.anons o O ho).2.2]
    cases hd : O.page with
    | none => rfl
    | some d =>
        obtain ⟨D, hD⟩ := h.held_live (i := .anon o) (d := d) zero_nonneg
          (by rw [holder_anon ho, hd])
        show decide ((s.page d).addr = 0) = decide ((v.pages d).addr = 0)
        rw [h.addr_eq hD]
  unfold Kernel.resolveShared Space.resolveShared
  rw [hnull]
  by_cases hn : v.isNull (v.anons o).page = true
  · rw [if_pos hn, if_pos hn]
    obtain ⟨h₁, O', hO', hd⟩ := h.resolveFresh ho hframe
    exact hpage _ _ O' s.next h₁ hO' hd
  · rw [if_neg hn, if_neg hn]
    cases hd : O.page with
    | none =>
        rw [(h.anons o O ho).2.2, hd] at hn
        exact absurd rfl hn
    | some d => exact hpage s v O d h ho hd

/-- **`resolve_mapping`** returns an object of its own. -/
theorem Sim.resolveMapping (m : Machine) (h : Sim s v 0 0 0) (f : FilePage) (a : Nat) {frame : Nat}
    (hframe : frame = 0 ∨ s.used frame = false) :
    (s.resolveMapping m f a frame).1 = (v.resolveMapping m f a frame s.mem).1
      ∧ Sim (s.resolveMapping m f a frame).2 (v.resolveMapping m f a frame s.mem).2
        (0 + tally (s.resolveMapping m f a frame).1) 0 0 := by
  unfold Kernel.resolveMapping Space.resolveMapping
  dsimp only
  rw [h.sharedPages]
  cases hc : s.sharedPages f.file ((a - f.startAddr + f.offset) % 2 ^ 52) with
  | some d =>
      obtain ⟨D, hD⟩ := h.held_live (i := .cache f.file ((a - f.startAddr + f.offset) % 2 ^ 52))
        zero_nonneg hc
      exact ⟨rfl, h.copyPage hD⟩
  | none =>
      dsimp only
      cases hr : m.readFile f.file ((a - f.startAddr + f.offset) % 2 ^ 52) with
      | none => exact ⟨rfl, h.of_eq (by simp) rfl rfl⟩
      | some bytes =>
          have hTn : 0 < ((0 : PagePtr → Int) + tally (some s.next)) s.next :=
            pos_add_tally zero_nonneg _
          have h₁ := h.newPage hframe (.file f.file ((a - f.startAddr + f.offset) % 2 ^ 52))
          obtain ⟨D₁, hn₁⟩ := h₁.local_live hTn
          have h₂ := h₁.setFlags hn₁ (rfl : PageFlags.of true true false false true false = _)
          obtain ⟨D₂, hn₂⟩ := h₂.local_live hTn
          have h₃ := h₂.setFrame hn₂ bytes
          obtain ⟨D₃, hn₃⟩ := h₃.local_live hTn
          rw [show s.newPage frame = (s.next, (s.newPage frame).2) from rfl, h.next]
          refine ⟨rfl, ?_⟩
          dsimp only
          split
          · have h₄ := (h₃.copyPage hn₃).setSharedPage f.file
              ((a - f.startAddr + f.offset) % 2 ^ 52) (some s.next)
            refine h₄.of_eq ?_ rfl rfl
            show _ + tally (s.sharedPages f.file ((a - f.startAddr + f.offset) % 2 ^ 52)) - _ = _
            rw [hc]
            simp
          · exact h₃

theorem Sim.resolvedMapping (h : Sim s v T 0 A) {d : PagePtr} {D : PageData}
    (hd : s.pages d = some D) (f : FilePage) (a : Nat) :
    s.resolvedMapping f a d = v.resolvedMapping f a d := by
  unfold Kernel.resolvedMapping Space.resolvedMapping
  rw [h.refCount_eq hd]

theorem Space.resolvedMapping_page (v : Space) (f : FilePage) (a : Nat) (d : PagePtr) :
    (v.resolvedMapping f a d).page = d := by
  unfold Space.resolvedMapping
  split <;> rfl

theorem Space.status_resolveMapping (m : Machine) (v : Space) (f : FilePage) (a frame : Nat)
    (mem : Nat → Bytes) : (v.resolveMapping m f a frame mem).2.status = v.status := by
  unfold Space.resolveMapping
  dsimp only
  split
  · rfl
  · split
    · rfl
    · dsimp only
      split <;> rfl

theorem Sim.fileFault (m : Machine) (h : Sim s v 0 0 0) (hp : v.status p = .running) (f : FilePage)
    {frame : Nat} (hframe : frame = 0 ∨ s.used frame = false) :
    SimFault (s.fileFault m p a frame f) (v.fileFault m p a frame f s.mem) := by
  obtain ⟨hsame, h₁⟩ := h.resolveMapping m f a hframe
  have hp₁ : (v.resolveMapping m f a frame s.mem).2.status p = .running := by
    rw [Space.status_resolveMapping]
    exact hp
  unfold Kernel.fileFault Space.fileFault
  generalize hx : s.resolveMapping m f a frame = x at hsame h₁
  generalize hy : v.resolveMapping m f a frame s.mem = y at hsame h₁ hp₁
  obtain ⟨od, s₁⟩ := x
  obtain ⟨od', v₁⟩ := y
  dsimp only at hsame h₁ hp₁
  subst hsame
  cases od with
  | none => exact ⟨rfl, h₁.of_eq (by simp) rfl rfl⟩
  | some d =>
      have hTd : 0 < ((0 : PagePtr → Int) + tally (some d)) d := pos_add_tally zero_nonneg _
      obtain ⟨D₁, hd₁⟩ := h₁.local_live hTd
      dsimp only
      rw [h₁.addr_eq hd₁]
      split
      · exact ⟨rfl, (h₁.destroyLocal hTd).of_eq (by simp) rfl rfl⟩
      · rw [h₁.resolvedMapping hd₁]
        have h₂ := h₁.copyPage hd₁
        obtain ⟨D₂, hd₂⟩ := h₂.local_live (d := d) (pos_add_tally (nonneg_add_tally zero_nonneg _) d)
        have h₃ := h₂.refPage hd₂
        obtain ⟨D₃, hd₃⟩ := h₃.local_live (d := d) (pos_add_tally (nonneg_add_tally zero_nonneg _) d)
        have h₄ := h₃.map (a := a) (not_absent hp₁) hd₃ (rfl : (v₁.resolvedMapping f a d).flags = _)
        have h₅ := h₄.setPageMapping (a := a) (not_absent hp₁)
          (nonneg_add_tally (nonneg_add_tally zero_nonneg _) _) (nonneg_add_tally zero_nonneg _)
          zero_nonneg (.fileMemory (v₁.resolvedMapping f a d) f.shared) (fun o ho => by cases ho)
        have h₆ : Sim _ _ ((0 : PagePtr → Int) + tally (some d)) 0 0 :=
          h₅.of_eq (by simp [MemoryEntry.held, Space.resolvedMapping_page])
            (by simp [MemoryEntry.held, Space.resolvedMapping_page]) rfl
        exact ⟨rfl, (h₆.destroyLocal hTd).of_eq (by simp) rfl rfl⟩

theorem Sim.copyFile (h : Sim s v 0 0 0) (hp : v.status p = .running) {f : MemoryFilePage}
    {shared : Bool} (he : v.maps p a = some (.fileMemory f shared)) {frame : Nat}
    (hframe : frame = 0 ∨ s.used frame = false) :
    SimFault (s.copyFile p a f shared frame) (v.copyFile p a f shared frame s.mem) := by
  have hp' := not_absent hp
  have hT : ∀ x, 0 ≤ ((0 : PagePtr → Int) + tally (some s.next)) x := nonneg_add_tally zero_nonneg _
  have hTn : 0 < ((0 : PagePtr → Int) + tally (some s.next)) s.next := pos_add_tally zero_nonneg _
  obtain ⟨D, hd⟩ := h.slot_live zero_nonneg he rfl
  have hdn : f.page ≠ s.next := Nat.ne_of_lt (h.lt_next hd)
  have h₁ := h.newPage hframe (v.pages f.page).kind
  have hload := h₁.load p 0
  unfold Kernel.copyFile Space.copyFile
  rw [show s.newPage frame = (s.next, (s.newPage frame).2) from rfl]
  dsimp only
  rw [h.next, hload]
  cases hte : (v.newPage (v.pages f.page).kind frame (s.mem frame)).table p 0 with
  | none => exact ⟨rfl, (h₁.halt hp (some s.next)).of_eq (by simp) rfl rfl⟩
  | some te =>
      obtain ⟨D₁, hn₁⟩ := h₁.local_live hTn
      have h₂ := h₁.setFrame hn₁ (s.mem ((v.newPage (v.pages f.page).kind frame
        (s.mem frame)).pages te.1).addr)
      obtain ⟨D₂, hn₂⟩ := h₂.local_live hTn
      have h₃ := h₂.refPage hn₂
      obtain ⟨D₃, hn₃⟩ := h₃.local_live hTn
      have h₄ := h₃.map (a := a) hp' hn₃ (rfl : { f.flags with writable := true } = _)
      have h₅ := h₄.unrefSlot he rfl (hT f.page) (nonneg_add_tally zero_nonneg _ f.page)
      have hheld := refs_pos h₅.accounted.holderFinite (h₅.holder_slot he)
      have h₆ := h₅.destroyPage (d := f.page) (by
        have := hT f.page
        omega)
      obtain ⟨D₆, hn₆⟩ := h₆.local_live (d := s.next) (by
        rw [sub_tally_of_ne _ f.page _ hdn.symm]
        exact hTn)
      have h₇ := h₆.copyPage hn₆
      have h₈ := h₇.writeEntry hp' he
        (some (.fileMemory ⟨f.file, s.next, f.offset, false, { f.flags with writable := true }⟩
          shared))
      have h₉ : Sim _ _ ((0 : PagePtr → Int) + tally (some s.next)) 0 0 :=
        h₈.of_eq (replaced_balance 0 _ _) (by simp [MemoryEntry.held])
          (by simp [MemoryEntry.sharedPtr])
      exact ⟨rfl, (h₉.destroyLocal hTn).of_eq (by simp) rfl rfl⟩

theorem Sim.eraseSharedPage (h : Sim s v 0 0 0) (file offset : Nat) :
    Sim (s.eraseSharedPage file offset) (v.setSharedPage file offset none) 0 0 0 := by
  unfold Kernel.eraseSharedPage
  have h₁ := h.setSharedPage file offset none
  cases hc : s.sharedPages file offset with
  | none =>
      have hs : s.setSharedPage file offset none = s := by
        unfold Kernel.setSharedPage
        rw [update_none_of_none hc]
        dsimp only
        rw [Function.update_eq_self]
      rw [hs] at h₁
      exact h₁.of_eq (by simp [hc]) rfl rfl
  | some d =>
      have h₂ : Sim _ _ (0 + tally (some d)) 0 0 := h₁.of_eq (by simp [hc]) rfl rfl
      exact (h₂.destroyLocal (pos_add_tally zero_nonneg d)).of_eq (by simp) rfl rfl

theorem Sim.stealFile (h : Sim s v 0 0 0) (hp : v.status p = .running) {f : MemoryFilePage}
    {shared : Bool} (he : v.maps p a = some (.fileMemory f shared)) :
    Sim (s.stealFile p a f shared) (v.stealFile p a f shared) 0 0 0 := by
  have h₁ := h.eraseSharedPage f.file f.offset
  obtain ⟨D₁, hd₁⟩ := h₁.slot_live zero_nonneg he rfl
  have h₂ := h₁.map (a := a) (not_absent hp) hd₁ (rfl : { f.flags with writable := true } = _)
  have h₃ := h₂.writeEntry (not_absent hp) he
    (some (.fileMemory ⟨f.file, f.page, f.offset, false, { f.flags with writable := true }⟩ shared))
  exact h₃.of_eq (by simp [MemoryEntry.held]) (by simp [MemoryEntry.held])
    (by simp [MemoryEntry.sharedPtr])

theorem Sim.fileMemoryFault (h : Sim s v 0 0 0) (hp : v.status p = .running) {f : MemoryFilePage}
    {shared : Bool} (he : v.maps p a = some (.fileMemory f shared)) {code frame : Nat}
    (hframe : frame = 0 ∨ s.used frame = false) :
    SimFault (s.fileMemoryFault p a code frame f shared)
      (v.fileMemoryFault p a code frame f shared s.mem) := by
  obtain ⟨D, hd⟩ := h.slot_live zero_nonneg he rfl
  unfold Kernel.fileMemoryFault Space.fileMemoryFault
  rw [h.refCount_eq hd]
  split
  · split
    · exact h.copyFile hp he hframe
    · exact ⟨rfl, h.stealFile hp he⟩
  · exact ⟨rfl, h⟩

theorem Space.maps_resolveAnonymous (v : Space) (kind : Kind) (flags : PageFlags) (zero : Bool)
    (frame : Nat) (mem : Nat → Bytes) :
    (v.resolveAnonymous kind flags zero frame mem).maps = v.maps
      ∧ (v.resolveAnonymous kind flags zero frame mem).status = v.status := by
  unfold Space.resolveAnonymous
  dsimp only
  split <;> exact ⟨rfl, rfl⟩

theorem Space.maps_resolveShared (v : Space) (o : AnonPtr) (frame : Nat) (mem : Nat → Bytes) :
    (v.resolveShared o frame mem).maps = v.maps
      ∧ (v.resolveShared o frame mem).status = v.status := by
  unfold Space.resolveShared
  split
  · exact Space.maps_resolveAnonymous v _ _ _ _ _
  · exact ⟨rfl, rfl⟩

/-- **`handle_page_fault`.** -/
theorem Sim.handlePageFault (m : Machine) (h : Sim s v 0 0 0) (hp : v.status p = .running)
    {addr code frame : Nat} (hframe : frame = 0 ∨ s.used frame = false) :
    SimFault (s.handlePageFault m p addr code frame)
      (v.handlePageFault m p addr code frame s.mem) := by
  have hs : (s.procs p).memorymap (addr / 2 ^ 12) = v.maps p (addr / 2 ^ 12) := by
    rw [h.maps]
    rfl
  unfold Kernel.handlePageFault Space.handlePageFault
  split
  · exact ⟨rfl, h⟩
  · dsimp only
    rw [hs]
    cases he : v.maps p (addr / 2 ^ 12) with
    | none => exact ⟨rfl, h⟩
    | some e =>
        cases e with
        | memory d shared => exact h.memoryFault hp he hframe
        | empty => exact ⟨rfl, h⟩
        | file f => exact h.fileFault m hp f hframe
        | fileMemory f shared => exact h.fileMemoryFault hp he hframe
        | anonymous flags zero =>
            have h₁ := h.resolveAnonymous zero_nonneg hframe .priv flags zero
            have hkeep := v.maps_resolveAnonymous .priv flags zero frame s.mem
            dsimp only
            rw [h.next]
            exact h₁.anonymousFault m (by rw [hkeep.2]; exact hp) (by rw [hkeep.1]; exact he) rfl
              false
        | sharedAnonymous o =>
            have hshares : sharers s.maps (p, addr / 2 ^ 12) = some o := by
              show (s.maps p (addr / 2 ^ 12)).bind _ = some o
              rw [← h.maps, he]
              rfl
            have hpos := refs_pos h.accounted.sharersFinite hshares
            obtain ⟨O, ho⟩ := h.anon_live (o := o) (by
              show (0 : Int) < _ + 0
              omega)
            obtain ⟨hsame, h₁⟩ := h.resolveShared ho hframe
            have hkeep := v.maps_resolveShared o frame s.mem
            dsimp only
            rw [← hsame]
            exact h₁.anonymousFault m (by rw [hkeep.2]; exact hp) (by rw [hkeep.1]; exact he) rfl
              true

/-! A handler that does not fault itself leaves every status. -/

theorem Space.status_anonymousFault (m : Machine) (v : Space) (p a : Nat) (d : PagePtr)
    (shared : Bool) (hresult : (v.anonymousFault m p a d shared).1 ≠ .halted) :
    (v.anonymousFault m p a d shared).2.status = v.status := by
  unfold Space.anonymousFault at hresult ⊢
  split
  · rfl
  · rename_i hne
    rw [if_neg hne] at hresult
    dsimp only at hresult ⊢
    split
    · exact Space.status_setPageMapping (v.map p a d (v.pages d).flags) p a (.memory d shared)
    · rename_i hro
      rw [if_neg hro] at hresult
      exact absurd rfl hresult

theorem Space.status_memoryFault (v : Space) (p a code frame : Nat) (d : PagePtr)
    (shared : Bool) (mem : Nat → Bytes)
    (hresult : (v.memoryFault p a code frame d shared mem).1 ≠ .halted) :
    (v.memoryFault p a code frame d shared mem).2.status = v.status := by
  unfold Space.memoryFault Space.copyMemory at hresult ⊢
  dsimp only at hresult ⊢
  split
  · rename_i hw
    rw [if_pos hw] at hresult
    split
    · rename_i hr
      rw [if_pos hr] at hresult
      -- the copy stops the handler where the source cannot be read
      split
      · rename_i htable
        rw [htable] at hresult
        exact absurd rfl hresult
      · rfl
    · rfl
  · split <;> rfl

theorem Space.status_fileMemoryFault (v : Space) (p a code frame : Nat) (f : MemoryFilePage)
    (shared : Bool) (mem : Nat → Bytes)
    (hresult : (v.fileMemoryFault p a code frame f shared mem).1 ≠ .halted) :
    (v.fileMemoryFault p a code frame f shared mem).2.status = v.status := by
  unfold Space.fileMemoryFault Space.copyFile at hresult ⊢
  dsimp only at hresult ⊢
  split
  · rename_i hw
    rw [if_pos hw] at hresult
    split
    · rename_i hr
      rw [if_pos hr] at hresult
      split
      · rename_i htable
        rw [htable] at hresult
        exact absurd rfl hresult
      · rfl
    · rfl
  · rfl

theorem Space.status_fileFault (m : Machine) (v : Space) (p a frame : Nat) (f : FilePage)
    (mem : Nat → Bytes) : (v.fileFault m p a frame f mem).2.status = v.status := by
  have hkeep := v.status_resolveMapping m f a frame mem
  unfold Space.fileFault
  generalize v.resolveMapping m f a frame mem = y at hkeep
  obtain ⟨od, v₁⟩ := y
  cases od with
  | none => exact hkeep
  | some d =>
      dsimp only at hkeep ⊢
      split
      · exact hkeep
      · rw [← hkeep]
        exact Space.status_setPageMapping _ _ _ _

theorem Space.status_handlePageFault (m : Machine) (v : Space) (p addr code frame : Nat)
    (mem : Nat → Bytes) (hresult : (v.handlePageFault m p addr code frame mem).1 ≠ .halted) :
    (v.handlePageFault m p addr code frame mem).2.status = v.status := by
  unfold Space.handlePageFault at hresult ⊢
  by_cases haddr : addr ≥ kernelStart ∨ addr = 0
  · rw [if_pos haddr]
  · rw [if_neg haddr] at hresult ⊢
    dsimp only at hresult ⊢
    cases he : v.maps p (addr / 2 ^ 12) with
    | none => rfl
    | some e =>
        rw [he] at hresult
        cases e with
        | empty => rfl
        | anonymous flags zero =>
            exact (Space.status_anonymousFault _ _ _ _ _ _ hresult).trans
              (v.maps_resolveAnonymous .priv flags zero frame mem).2
        | sharedAnonymous o =>
            exact (Space.status_anonymousFault _ _ _ _ _ _ hresult).trans
              (v.maps_resolveShared o frame mem).2
        | memory d shared => exact Space.status_memoryFault _ _ _ _ _ _ _ _ hresult
        | fileMemory f shared => exact Space.status_fileMemoryFault _ _ _ _ _ _ _ _ hresult
        | file f => exact Space.status_fileFault _ _ _ _ _ _ _

/-- **A page fault.** -/
theorem Sim.pageFault (m : Machine) (h : Sim s v 0 0 0) (hp : v.status p = .running)
    {addr code frame : Nat} (hframe : frame = 0 ∨ s.used frame = false) :
    Sim (s.pageFault m p addr code frame) (v.pageFault m p addr code frame s.mem) 0 0 0 := by
  have hfault : SimFault (s.handlePageFault m p addr code frame)
      (v.handlePageFault m p addr code frame s.mem) := h.handlePageFault m hp hframe
  have hkeep := v.status_handlePageFault m p addr code frame s.mem
  unfold Kernel.pageFault Space.pageFault
  generalize s.handlePageFault m p addr code frame = x at hfault
  generalize v.handlePageFault m p addr code frame s.mem = y at hfault hkeep
  obtain ⟨r, s₁⟩ := x
  obtain ⟨r', v₁⟩ := y
  obtain ⟨hr, h₁⟩ := hfault
  dsimp only at hr h₁ hkeep
  subst hr
  cases r with
  | handled => exact h₁
  | halted => exact h₁
  | refused =>
      have hp₁ : v₁.status p = .running := by
        rw [hkeep (by simp)]
        exact hp
      exact (h₁.halt hp₁ none).of_eq (by simp) rfl rfl

/-! ## §4. `fork`. -/

theorem Sim.protectMemory (h : Sim s v 0 0 0) (hp : v.status p ≠ .absent) {d : PagePtr}
    {shared : Bool} (he : v.maps p a = some (.memory d shared)) :
    Sim (s.protectMemory p a d) (v.protectMemory p a d) 0 0 0 := by
  obtain ⟨D, hd⟩ := h.slot_live zero_nonneg he rfl
  have h₁ := h.setFlags hd (congrArg (fun fl : PageFlags => { fl with writable := false })
    (h.flags_eq hd))
  obtain ⟨D₁, hd₁⟩ := h₁.slot_live zero_nonneg he rfl
  have h₂ := h₁.setCopyOnWrite hd₁ true
  obtain ⟨D₂, hd₂⟩ := h₂.slot_live zero_nonneg he rfl
  exact h₂.map hp hd₂ (h₂.flags_eq hd₂)

/-- The child's part of a file mapping. -/
theorem Sim.forkFile (h : Sim s v 0 0 0) {child : Nat} (hchild : v.status child ≠ .absent)
    (hnone : v.maps child a = none) {f : MemoryFilePage} {shared : Bool}
    (he : v.maps p a = some (.fileMemory f shared)) (hpc : p ≠ child) :
    Sim ((((s.copyPage f.page).insertEntry child a (.fileMemory f shared)).map child a
        (((s.copyPage f.page).insertEntry child a (.fileMemory f shared)).page f.page).addr
        f.flags).refPage f.page)
      ((v.setEntry child a (some (.fileMemory f shared))).map child a f.page f.flags) 0 0 0 := by
  obtain ⟨D, hd⟩ := h.slot_live zero_nonneg he rfl
  have h₁ := h.copyPage hd
  have h₂ := h₁.insertEntry hchild hnone (.fileMemory f shared) (fun o ho => by cases ho)
  have h₃ : Sim _ _ 0 (0 - tally (some f.page)) 0 := h₂.of_eq (by simp [MemoryEntry.held]) rfl rfl
  have he₃ : (v.setEntry child a (some (.fileMemory f shared))).maps p a
      = some (.fileMemory f shared) := by
    show v.maps.set child a _ p a = _
    rw [Maps.set_of_ne _ _ (by simp [hpc])]
    exact he
  obtain ⟨D₃, hd₃⟩ := h₃.slot_live zero_nonneg he₃ rfl
  have h₄ := h₃.map (a := a) hchild hd₃ (rfl : f.flags = f.flags)
  have h₅ := h₄.refPage hd₃
  exact h₅.of_eq rfl (by simp) rfl

theorem Sim.forkEntry (h : Sim s v 0 0 0) {child : Nat} (hp : v.status p ≠ .absent)
    (hchild : v.status child ≠ .absent) (hpc : p ≠ child) (hnone : v.maps child a = none) :
    Sim (s.forkEntry p child a) (v.forkEntry p child a) 0 0 0 := by
  have hs : (s.procs p).memorymap a = v.maps p a := by
    rw [h.maps]
    rfl
  have hplain : ∀ e, v.maps p a = some e → e.held = none →
      Sim (s.insertEntry child a e) (v.setEntry child a (some e)) 0 0 0 := by
    intro e he hheld
    have h₁ := h.insertEntry hchild hnone e (by
      intro o ho
      have hshares : sharers s.maps (p, a) = some o := by
        show (s.maps p a).bind _ = some o
        rw [← h.maps, he]
        exact ho
      have hpos := refs_pos h.accounted.sharersFinite hshares
      show (0 : Int) < _ + 0
      omega)
    exact h₁.of_eq (by simp [hheld]) (by simp [hheld]) rfl
  unfold Kernel.forkEntry Space.forkEntry
  rw [hs]
  cases he : v.maps p a with
  | none => exact h
  | some e =>
      cases e with
      | anonymous flags zero => exact hplain _ he rfl
      | sharedAnonymous o => exact hplain _ he rfl
      | file f => exact hplain _ he rfl
      | empty => exact hplain _ he rfl
      | memory d shared =>
          obtain ⟨D, hd⟩ := h.slot_live zero_nonneg he rfl
          dsimp only
          rw [h.flags_eq hd]
          have h₁ : Sim
              (if (v.pages d).flags.writable = true ∧ shared = false then s.protectMemory p a d else s)
              (if (v.pages d).flags.writable = true ∧ shared = false then v.protectMemory p a d else v)
              0 0 0 ∧
              (if (v.pages d).flags.writable = true ∧ shared = false then v.protectMemory p a d
                else v).maps p a = some (.memory d shared) ∧
              (if (v.pages d).flags.writable = true ∧ shared = false then v.protectMemory p a d
                else v).status = v.status := by
            split
            · exact ⟨h.protectMemory hp he, he, rfl⟩
            · exact ⟨h, he, rfl⟩
          obtain ⟨D₁, hd₁⟩ := h₁.1.slot_live zero_nonneg h₁.2.1 rfl
          exact h₁.1.mapPage (by rw [h₁.2.2]; exact hchild) zero_nonneg zero_nonneg zero_nonneg hd₁
            shared
      | fileMemory f shared =>
          dsimp only
          by_cases hw : f.flags.writable = true ∧ shared = false
          · rw [if_pos hw, if_pos hw]
            obtain ⟨D, hd⟩ := h.slot_live zero_nonneg he rfl
            have hpage : (Kernel.protectFile f shared).page = f.page := by
              unfold Kernel.protectFile
              split <;> rfl
            have h₁ := h.writeEntry hp he (some (.fileMemory (Kernel.protectFile f shared) shared))
            have h₂ : Sim _ _ 0 0 0 := h₁.of_eq (by simp [MemoryEntry.held, hpage])
              (by simp [MemoryEntry.held, hpage]) (by simp [MemoryEntry.sharedPtr])
            have h₃ := h₂.map (a := a) hp hd (rfl : (Kernel.protectFile f shared).flags = _)
            have h₄ := h₃.forkFile (p := p) (a := a) hchild
              (by
                show v.maps.set p a _ child a = none
                rw [Maps.set_of_ne _ _ (by simp [hpc.symm])]
                exact hnone)
              (Maps.set_self v.maps p a _) hpc
            rw [hpage] at h₄
            exact h₄
          · rw [if_neg hw, if_neg hw]
            have hg : Kernel.protectFile f shared = f := by
              unfold Kernel.protectFile
              rw [if_neg hw]
            rw [hg]
            exact h.forkFile hchild hnone he hpc

end MierOS.Tasking
