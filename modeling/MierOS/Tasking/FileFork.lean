/-
  MierOS.Tasking.FileFork
  **COPY ON WRITE OF PRIVATE FILE PAGES**: the `FILE_MEMORY` case of
  `handle_page_fault`.

  The copy is read at `fault_address & !0xFFF`, and `!0xFFF` is 0: the new page
  gets what page 0 of the process holds, and with nothing mapped there the
  handler itself faults.  `file_fault_keeps_contents_iff` says for every such
  fault of every run when contents survive it all the same.
-/
import MierOS.Tasking.Replay

namespace MierOS.Tasking

open Memory.Virtual
open Lib (Run)
open Function (update update_of_ne update_self)

variable {s s' : Kernel} {v v' : Space} {p a : Nat} {m : Machine}

/-! ## §1. The fault. -/

/-- A write to a private file page that is mapped copy on write. -/
structure Kernel.FileWriteFault (s : Kernel) (p addr code : Nat) (f : MemoryFilePage) : Prop where
  user : ¬ (addr ≥ kernelStart ∨ addr = 0)
  entry : (s.procs p).memorymap (addr / 2 ^ 12) = some (.fileMemory f false)
  write : code.testBit 1 = true
  copyOnWrite : f.copyOnWrite = true

/-- **The fault keeps what processes see**: the process goes on with the
contents its page had, and nobody else's pages change. -/
def Kernel.KeepsContents (s s' : Kernel) (p a : Nat) : Prop :=
  (s'.procs p).status = .running ∧ s'.load p a = s.load p a
    ∧ ∀ q c, q ≠ p → s'.load q c = s.load q c

theorem mem_stealFile (s : Kernel) (p a : Nat) (f : MemoryFilePage) (shared : Bool) :
    (s.stealFile p a f shared).mem = s.mem := by
  show (s.eraseSharedPage f.file f.offset).mem = s.mem
  unfold Kernel.eraseSharedPage
  cases s.sharedPages f.file f.offset with
  | none => rfl
  | some d => exact (destroyPage_frame _ d).2.2.2.1

theorem mem_copyFile {bytes : Bytes} (hload : s.load p 0 = some bytes) (a : Nat) (f : MemoryFilePage)
    (shared : Bool) (frame : Nat) :
    (s.copyFile p a f shared frame).2.mem = update s.mem frame bytes := by
  have hload' : (s.newPage frame).2.load p 0 = some bytes := hload
  have haddr : ((s.newPage frame).2.page s.next).addr = frame := by
    show ((update s.pages s.next _ s.next).getD noData).addr = frame
    rw [update_self]
    rfl
  unfold Kernel.copyFile
  dsimp only
  rw [hload']
  dsimp only
  rw [(destroyPage_frame _ _).2.2.2.1]
  show (Kernel.destroyPage _ f.page).mem = _
  rw [(destroyPage_frame _ _).2.2.2.1]
  show update s.mem ((s.newPage frame).2.page s.next).addr bytes = _
  rw [haddr]

/-- The handler takes the copy-on-write branch. -/
theorem pageFault_file {addr code : Nat} {f : MemoryFilePage} (h : s.FileWriteFault p addr code f)
    (m : Machine) (frame : Nat) :
    s.pageFault m p addr code frame
      = if (s.page f.page).refCount > 1 then (s.copyFile p (addr / 2 ^ 12) f false frame).2
        else s.stealFile p (addr / 2 ^ 12) f false := by
  unfold Kernel.pageFault Kernel.handlePageFault
  rw [if_neg h.user]
  dsimp only
  rw [h.entry]
  dsimp only
  unfold Kernel.fileMemoryFault
  rw [if_pos ⟨h.write, h.copyOnWrite⟩]
  by_cases hmany : (s.page f.page).refCount > 1
  · rw [if_pos hmany, if_pos hmany]
    unfold Kernel.copyFile
    dsimp only
    cases (s.newPage frame).2.load p 0 with
    | none => rfl
    | some bytes => rfl
  · rw [if_neg hmany, if_neg hmany]

theorem Space.pageFault_file {addr code : Nat} {f : MemoryFilePage}
    (h : s.FileWriteFault p addr code f) (hmaps : v.maps = s.maps) (m : Machine) (frame : Nat)
    (mem : Nat → Bytes) :
    v.pageFault m p addr code frame mem
      = if v.readers f.page > 1 then (v.copyFile p (addr / 2 ^ 12) f false frame mem).2
        else v.stealFile p (addr / 2 ^ 12) f false := by
  have he : v.maps p (addr / 2 ^ 12) = some (.fileMemory f false) := by
    rw [hmaps]
    exact h.entry
  unfold Space.pageFault Space.handlePageFault
  rw [if_neg h.user]
  dsimp only
  rw [he]
  dsimp only
  unfold Space.fileMemoryFault
  rw [if_pos ⟨h.write, h.copyOnWrite⟩]
  by_cases hmany : v.readers f.page > 1
  · rw [if_pos hmany, if_pos hmany]
    unfold Space.copyFile
    dsimp only
    cases (v.newPage (v.pages f.page).kind frame (mem frame)).table p 0 with
    | none => rfl
    | some te => rfl
  · rw [if_neg hmany, if_neg hmany]

/-! ## §2. What the two branches do. -/

section Branches

variable {frame : Nat} {f : MemoryFilePage}

/-- Nobody else maps the page: it stays, with its contents. -/
theorem Sim.steal_keeps (h : Sim s v 0 0 0) (hp : v.status p = .running)
    (htable : ∃ flags, v.table p a = some (f.page, flags))
    (h' : Sim (s.stealFile p a f false) (v.stealFile p a f false) 0 0 0) :
    s.KeepsContents (s.stealFile p a f false) p a := by
  have hmem := mem_stealFile s p a f false
  have htable' : ∀ q c, (v.stealFile p a f false).table q c = if q = p ∧ c = a then
      some (f.page, { f.flags with writable := true, present := true }) else v.table q c := by
    intro q c
    exact Space.table_setTable _ p a _ q c
  refine ⟨?_, ?_, ?_⟩
  · exact (congrFun h'.status p).symm.trans hp
  · obtain ⟨flags, htable⟩ := htable
    rw [h'.load, h.load, hmem, htable', if_pos ⟨rfl, rfl⟩, htable]
    rfl
  · intro q c hqp
    rw [h'.load, h.load, hmem, htable', if_neg (fun hin => hqp hin.1)]
    rfl

/-- Nothing is mapped at page 0: the handler faults. -/
theorem Sim.copy_halts (htable : v.table p 0 = none) (mem : Nat → Bytes)
    (h' : Sim (s.copyFile p a f false frame).2 (v.copyFile p a f false frame mem).2 0 0 0) :
    ((s.copyFile p a f false frame).2.procs p).status ≠ .running := by
  have hstatus : (v.copyFile p a f false frame mem).2.status p = .stuck (some v.next) := by
    have htable' : (v.newPage (v.pages f.page).kind frame (mem frame)).table p 0 = none := htable
    unfold Space.copyFile
    dsimp only
    rw [htable']
    exact update_self _ _ _
  have hsame := congrFun h'.status p
  rw [hstatus] at hsame
  intro hrun
  rw [show (s.copyFile p a f false frame).2.status p = .running from hrun] at hsame
  cases hsame

/-- The new page holds what page 0 holds. -/
theorem Sim.copy_loads (h : Sim s v 0 0 0) {te : PagePtr × PageFlags}
    (htable : v.table p 0 = some te)
    (h' : Sim (s.copyFile p a f false frame).2 (v.copyFile p a f false frame s.mem).2 0 0 0) :
    ((s.copyFile p a f false frame).2.status p = v.status p)
    ∧ ((s.copyFile p a f false frame).2.load p a = s.load p 0)
    ∧ ∀ q c, q ≠ p → (s.copyFile p a f false frame).2.load q c
      = ((s.procs q).pager c).map fun pte =>
        if pte.1 = frame then s.mem (v.pages te.1).addr else s.mem pte.1 := by
  have hload : s.load p 0 = some (s.mem (v.pages te.1).addr) := h.load_mapped htable
  have hmem := mem_copyFile hload a f false frame
  have htable' : (v.newPage (v.pages f.page).kind frame (s.mem frame)).table p 0 = some te := htable
  -- the abstract state after the copy
  have hmaps : ∀ q c, (v.copyFile p a f false frame s.mem).2.table q c = if q = p ∧ c = a then
      some (v.next, { f.flags with writable := true, present := true }) else v.table q c := by
    intro q c
    unfold Space.copyFile
    dsimp only
    rw [htable']
    exact Space.table_setTable _ p a _ q c
  have hpages : ∀ x, ((v.copyFile p a f false frame s.mem).2.pages x).addr
      = if x = v.next then frame else (v.pages x).addr := by
    intro x
    unfold Space.copyFile
    dsimp only
    rw [htable']
    show ((((v.newPage (v.pages f.page).kind frame (s.mem frame)).setBytes v.next _).pages) x).addr = _
    unfold Space.setBytes
    rw [Space.modifyPage_pages]
    by_cases hx : x = v.next
    · rw [if_pos hx, if_pos hx, hx]
      show (update v.pages v.next _ v.next).addr = frame
      rw [update_self]
    · rw [if_neg hx, if_neg hx]
      show (update v.pages v.next _ x).addr = _
      rw [update_of_ne hx]
  have hstatus : (v.copyFile p a f false frame s.mem).2.status = v.status := by
    unfold Space.copyFile
    dsimp only
    rw [htable']
    rfl
  refine ⟨?_, ?_, ?_⟩
  · rw [← h'.status, hstatus]
  · rw [h'.load, hmaps, if_pos ⟨rfl, rfl⟩, hload, hmem, Option.map_some]
    dsimp only
    rw [hpages, if_pos rfl, update_self]
  · intro q c hqp
    rw [h'.load, hmaps, if_neg (fun hin => hqp hin.1), hmem, h.table, Option.map_map]
    cases ht : v.table q c with
    | none => rfl
    | some x =>
        have hlt := h.tableLt q c x ht
        rw [Option.map_some, Option.map_some]
        dsimp only [Function.comp]
        rw [hpages, if_neg (Nat.ne_of_lt hlt)]
        by_cases hx : (v.pages x.1).addr = frame
        · rw [if_pos hx, hx, update_self]
        · rw [if_neg hx, update_of_ne hx]

/-- **The copy keeps what processes see** exactly if page 0 holds the same bytes,
and whoever maps the new frame already. -/
theorem Sim.copy_keeps_iff (h : Sim s v 0 0 0) (hp : v.status p = .running)
    {te : PagePtr × PageFlags} (htable : v.table p 0 = some te)
    (h' : Sim (s.copyFile p a f false frame).2 (v.copyFile p a f false frame s.mem).2 0 0 0) :
    s.KeepsContents (s.copyFile p a f false frame).2 p a
      ↔ s.load p 0 = s.load p a
        ∧ ∀ q c flags, q ≠ p → (s.procs q).pager c = some (frame, flags) →
          s.load q c = s.load p a := by
  obtain ⟨hstatus, hself, hother⟩ := h.copy_loads htable h'
  constructor
  · intro hkeeps
    have hsame : s.load p 0 = s.load p a := by
      rw [← hself, hkeeps.2.1]
    refine ⟨hsame, ?_⟩
    intro q c flags hqp hpager
    rw [← hkeeps.2.2 q c hqp, hother q c hqp, hpager, ← hsame, h.load, htable]
    show some (if frame = frame then _ else _) = _
    rw [if_pos rfl]
    rfl
  · intro hsame
    refine ⟨hstatus.trans hp, hself.trans hsame.1, ?_⟩
    intro q c hqp
    rw [hother q c hqp]
    cases hpager : (s.procs q).pager c with
    | none =>
        rw [Kernel.load_unmapped hpager]
        rfl
    | some pte =>
        by_cases hpte : pte.1 = frame
        · -- the frame is mapped already, with the same bytes
          have hq := hsame.2 q c pte.2 hqp (by rw [hpager, ← hpte])
          rw [hq, ← hsame.1, h.load_mapped htable, Option.map_some, if_pos hpte]
        · rw [Option.map_some, if_neg hpte, Kernel.load_mapped hpager]

end Branches

/-! ## §3. Every fault of every run. -/

/-- **When a copy-on-write fault on a private file page keeps contents**: in
every reachable state, exactly if nobody else maps the page, or page 0 of the
process holds the same bytes and the frame `palloc` returned (0 when it fails)
is not mapped by another process with other bytes. -/
theorem file_fault_keeps_contents_iff {s₀ : Kernel} (hinit : Initial s₀) {hist : List Event}
    (hrun : Run (Step m) s₀ hist s) {addr code frame : Nat} {f : MemoryFilePage}
    (hst : Step m s (.pageFault p addr code frame) s') (hfault : s.FileWriteFault p addr code f) :
    s.KeepsContents s' p (addr / 2 ^ 12)
      ↔ (s.page f.page).refCount ≤ 1
        ∨ (s.load p 0 = s.load p (addr / 2 ^ 12)
          ∧ ∀ q c flags, q ≠ p → (s.procs q).pager c = some (frame, flags) →
            s.load q c = s.load p (addr / 2 ^ 12)) := by
  obtain ⟨v, hsim, hv⟩ := run_related hinit hrun
  cases hst with
  | pageFault hp hframe =>
      have hp' : v.status p = .running := by
        rw [hsim.status]
        exact hp
      have he : v.maps p (addr / 2 ^ 12) = some (.fileMemory f false) := by
        rw [hsim.maps]
        exact hfault.entry
      obtain ⟨D, hD⟩ := hsim.slot_live zero_nonneg he rfl
      have hcount := hsim.refCount_eq hD
      have htable : v.table p (addr / 2 ^ 12)
          = some (f.page, { f.flags with present := true }) := by
        rw [hv.agrees, he]
        rfl
      have hload : s.load p (addr / 2 ^ 12) = some (s.mem (v.pages f.page).addr) :=
        hsim.load_mapped htable
      have hsim' : Sim (s.pageFault m p addr code frame)
          (v.pageFault m p addr code frame s.mem) 0 0 0 := hsim.pageFault m hp' hframe
      rw [pageFault_file hfault, Space.pageFault_file hfault hsim.maps, hcount] at hsim'
      rw [pageFault_file hfault, hcount]
      by_cases hmany : v.readers f.page > 1
      · rw [if_pos hmany, if_pos hmany] at hsim'
        rw [if_pos hmany, or_iff_right (Nat.not_le_of_gt hmany)]
        cases ht : v.table p 0 with
        | none =>
            -- the process halts, and its page is mapped while page 0 is not
            have hzero : s.load p 0 = none := hsim.load_unmapped ht
            apply iff_of_false
            · intro hkeeps
              exact Sim.copy_halts ht _ hsim' hkeeps.1
            · intro hsame
              rw [hzero, hload] at hsame
              cases hsame.1
        | some te => exact hsim.copy_keeps_iff hp' ht hsim'
      · rw [if_neg hmany, if_neg hmany] at hsim'
        rw [if_neg hmany]
        constructor
        · intro _
          exact Or.inl (Nat.le_of_not_lt hmany)
        · intro _
          exact hsim.steal_keeps hp' ⟨_, htable⟩ hsim'

/-- A private writable file page is read, and the process forks. -/
def forkedFilePage : List Event :=
  [.fork 0 1 [5], .pageFault 0 (5 * 2 ^ 12) 0 7, .filePages 0 5 1 0 0 false true false]

/-- The parent writes its page after the fork, and the handler faults: nothing
is mapped at page 0. -/
theorem file_fault_stops_process :
    (replayable .zeroFile .boot (.pageFault 0 (5 * 2 ^ 12) 3 8 :: forkedFilePage) = true)
      ∧ ¬ Kernel.KeepsContents (replay .zeroFile .boot forkedFilePage)
        (replay .zeroFile .boot (.pageFault 0 (5 * 2 ^ 12) 3 8 :: forkedFilePage)) 0 5 := by
  refine ⟨by decide, ?_⟩
  intro hkeeps
  have hstuck : ((replay .zeroFile .boot
      (.pageFault 0 (5 * 2 ^ 12) 3 8 :: forkedFilePage)).procs 0).status = .stuck (some 1) := by
    decide
  have hgoes := hkeeps.1
  rw [hstuck] at hgoes
  cases hgoes

/-- The child leaves, and the parent may write again. -/
theorem file_fault_keeps_contents_iff_alone :
    Kernel.KeepsContents (replay .zeroFile .boot (.unmapPages 1 5 1 :: forkedFilePage))
      (replay .zeroFile .boot
        (.pageFault 0 (5 * 2 ^ 12) 3 8 :: .unmapPages 1 5 1 :: forkedFilePage)) 0 5 := by
  have hrun : Run (Step .zeroFile) .boot (.unmapPages 1 5 1 :: forkedFilePage) _ :=
    replay_run Kernel.boot_initial (by decide)
  have hst := Event.step_of_enabled (e := .pageFault 0 (5 * 2 ^ 12) 3 8) Kernel.boot_initial hrun
    (by decide)
  apply (file_fault_keeps_contents_iff (f := ⟨0, 0, 0, true, .of true false true false false false⟩)
    Kernel.boot_initial hrun hst ⟨by decide, by decide, by decide, rfl⟩).mpr
  exact Or.inl (by decide)

end MierOS.Tasking
