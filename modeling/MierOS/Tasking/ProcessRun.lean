/-
  MierOS.Tasking.ProcessRun
  **RUNS OF THE PROCESSES.**

  Every event of the kernel is an event of the address spaces (`Sim.step`), so
  what holds of every history of address spaces holds of every run of the
  kernel (`run_rule`).  The first use of it:

  Main results: `memory_map_and_page_table_agree`.
-/
import MierOS.Tasking.ForkCases

namespace MierOS.Tasking

open Memory.Virtual
open Lib.Refs
open Lib (Run)

variable {s s' : Kernel} {v v' : Space} {p a child : Nat} {m : Machine}

/-! ## §1. One event. -/

/-- A fault that is refused stops the process. -/
theorem Space.pageFault_cases (h : v.Good) (m : Machine) (p addr code frame : Nat)
    (mem : Nat → Bytes) :
    ∃ r w, Space.Fault m v p (addr / 2 ^ 12) code frame mem r w
      ∧ v.pageFault m p addr code frame mem
        = if r = .refused then w.setStatus p (.stuck none) else w := by
  have hf := Space.handlePageFault_cases m h p addr code frame mem
  unfold Space.pageFault
  generalize v.handlePageFault m p addr code frame mem = y at hf
  obtain ⟨r, w⟩ := y
  refine ⟨r, w, hf, ?_⟩
  cases r with
  | handled => rfl
  | halted => rfl
  | refused => rfl

theorem Space.Good.pageFault (h : v.Good) (hfin : Finite (mapped v.maps)) (m : Machine)
    (p addr code frame : Nat) (mem : Nat → Bytes) : (v.pageFault m p addr code frame mem).Good := by
  obtain ⟨r, w, hf, heq⟩ := Space.pageFault_cases h m p addr code frame mem
  have hg := hf.good h hfin
  rw [heq]
  split
  · exact hg.setStatus p _
  · exact hg

/-- The child starts with nothing mapped, as it was. -/
theorem Sim.startChild (h : Sim s v 0 0 0) (hchild : v.status child = .absent) :
    Sim (s.setProc child (.ofStatus .running)) (v.setStatus child .running) 0 0 0 := by
  have hempty := h.absent child hchild
  have hmaps : (s.setProc child (.ofStatus .running)).maps = s.maps := by
    rw [maps_setProc]
    have hnone : (Process.ofStatus .running).memorymap = s.maps child := by
      rw [← h.maps, hempty.1]
      rfl
    rw [hnone]
    exact Function.update_eq_self child s.maps
  have hstatus := status_setProc s child (.ofStatus .running)
  have hholder : (s.setProc child (.ofStatus .running)).holder = s.holder := by
    funext i
    cases i with
    | slot q b =>
        show mapped (s.setProc child (.ofStatus .running)).maps (q, b) = _
        rw [hmaps]
        rfl
    | anon o => rfl
    | cache file offset => rfl
    | handler q =>
        show ((s.setProc child (.ofStatus .running)).status q).held = (s.status q).held
        rw [hstatus]
        by_cases hq : q = child
        · rw [hq, Function.update_self, ← h.status, hchild]
          rfl
        · rw [Function.update_of_ne hq]
  constructor
  case accounted =>
    refine h.accounted.move rfl rfl rfl (fun _ => rfl) ?_ ?_ ?_ ?_ ?_
    · rw [hholder]
      exact h.accounted.holderFinite
    · rw [hmaps]
      exact h.accounted.sharersFinite
    · intro d
      rw [hholder]
    · intro d
      rw [hmaps]
    · intro o
      rw [hmaps]
  case maps =>
    rw [hmaps]
    exact h.maps
  case table =>
    intro q b
    show (Function.update s.procs child (.ofStatus .running) q).pager b = (v.table q b).map _
    by_cases hq : q = child
    · rw [hq, Function.update_self, hempty.2]
      rfl
    · rw [Function.update_of_ne hq]
      exact h.table q b
  case tableLt => exact h.tableLt
  case status =>
    rw [hstatus, ← h.status]
    rfl
  case absent =>
    intro q hq
    have hq' : Function.update v.status child .running q = .absent := hq
    by_cases hqc : q = child
    · rw [hqc, Function.update_self] at hq'
      cases hq'
    · rw [Function.update_of_ne hqc] at hq'
      exact h.absent q hq'
  case pages => exact h.pages
  case contents => exact h.contents
  case anons => exact h.anons
  case sharedPages => exact h.sharedPages
  case next => exact h.next

theorem Sim.table_live (h : Sim s v 0 0 0) (hv : v.Good) {d : PagePtr} {flags : PageFlags}
    (ht : v.table p a = some (d, flags)) : ∃ D, s.pages d = some D := by
  obtain ⟨e, he, hd⟩ := hv.table_held ht
  exact h.slot_live zero_nonneg he hd

theorem Sim.shows (h : Sim s v 0 0 0) (hv : v.Good) : v.Shows s.mem := by
  intro p a d flags ht hne
  obtain ⟨D, hD⟩ := h.table_live hv ht
  rw [(h.pages d D hD).1] at hne ⊢
  exact h.contents d D hD hne

/-- The frame a page table names is the frame of its page. -/
theorem Sim.permits (h : Sim s v 0 0 0) {frame : Nat} {write : Bool}
    (hper : s.Permits p a frame write) :
    ∃ d, v.Permits p a d write ∧ (v.pages d).addr = frame := by
  obtain ⟨flags, hpager, huser, hw⟩ := hper
  rw [h.table] at hpager
  cases ht : v.table p a with
  | none => rw [ht] at hpager; cases hpager
  | some te =>
      rw [ht] at hpager
      have heq := Option.some.inj hpager
      refine ⟨te.1, ⟨te.2, ht, ?_, ?_⟩, congrArg Prod.fst heq⟩
      · rw [congrArg Prod.snd heq]
        exact huser
      · rw [congrArg Prod.snd heq]
        exact hw

/-- **Every event of the kernel is an event of the address spaces.** -/
theorem Sim.step (h : Sim s v 0 0 0) (hv : v.Good) {e : Event} (hst : Step m s e s') :
    ∃ v', Space.Step m v e v' ∧ Sim s' v' 0 0 0 ∧ v'.Good := by
  have hrun : ∀ q, (s.procs q).status = .running → v.status q = .running := by
    intro q hq
    rw [h.status]
    exact hq
  have hfin : Finite (mapped v.maps) := by
    rw [h.maps]
    exact h.accounted.mappedFinite
  cases hst with
  | @nullPages p a n hp =>
      have hp := hrun p hp
      exact ⟨_, .nullPages hp, h.nullPages (not_absent hp) n, hv.nullPages p a n⟩
  | @allocPages p a n flags prot hp =>
      have hp := hrun p hp
      exact ⟨_, .allocPages hp, h.allocPages (not_absent hp) n flags prot,
        hv.allocPages p a n flags prot⟩
  | @filePages p a n file offset shared write execute hp =>
      have hp := hrun p hp
      exact ⟨_, .filePages hp, h.filePages (not_absent hp) n file offset shared write execute,
        hv.filePages p a n file offset shared write execute⟩
  | @unmapPages p a n hp =>
      have hp := hrun p hp
      exact ⟨_, .unmapPages hp, h.unmapPages (not_absent hp) n, hv.unmapPages p a n⟩
  | @pageFault p addr code frame hp hframe =>
      have hp := hrun p hp
      exact ⟨_, .pageFault hp (h.shows hv), h.pageFault m hp hframe,
        hv.pageFault hfin m p addr code frame s.mem⟩
  | @fork p child keys hp hchild hkeys =>
      have hp := hrun p hp
      have hchild : v.status child = .absent := by
        rw [h.status]
        exact hchild
      have hmem : ∀ a, a ∈ keys ↔ v.maps p a ≠ none := by
        intro a
        rw [h.maps]
        exact hkeys.2 a
      obtain ⟨hgood, -, hsim⟩ := Space.fork_spec hv hp hchild
        (fun b => congrFun (h.absent child hchild).1 b) hkeys.1 hmem
      exact ⟨_, .fork hp hchild hkeys.1 hmem, hsim _ (h.startChild hchild), hgood⟩
  | @userRead p a o frame hp hper =>
      have hp := hrun p hp
      obtain ⟨d, hd, haddr⟩ := h.permits hper
      refine ⟨v, .userRead hp hd ?_, h, hv⟩
      intro hne
      obtain ⟨flags, ht, -, -⟩ := hd
      rw [← h.shows hv p a d flags ht hne, haddr]
  | @userWrite p a o frame b hp hper =>
      have hp := hrun p hp
      obtain ⟨d, hd, haddr⟩ := h.permits hper
      refine ⟨v.setByte d o b, .userWrite hp hd, ?_, hv.setBytes d _⟩
      obtain ⟨flags, ht, -, -⟩ := hd
      obtain ⟨D, hD⟩ := h.table_live hv ht
      rw [(h.pages d D hD).1] at haddr
      rw [← haddr]
      apply h.writeFrame hD
      intro hne
      rw [h.contents d D hD hne]

/-! ## §2. Runs. -/

/-- `palloc` does not fail. -/
def Event.Allocated : Event → Prop
  | .pageFault _ _ _ frame => frame ≠ 0
  | _ => True

instance : DecidablePred Event.Allocated
  | .pageFault _ _ _ frame => inferInstanceAs (Decidable (frame ≠ 0))
  | .nullPages _ _ _ => .isTrue trivial
  | .allocPages _ _ _ _ _ => .isTrue trivial
  | .filePages _ _ _ _ _ _ _ _ => .isTrue trivial
  | .unmapPages _ _ _ => .isTrue trivial
  | .fork _ _ _ => .isTrue trivial
  | .userRead _ _ _ _ => .isTrue trivial
  | .userWrite _ _ _ _ => .isTrue trivial

/-- The address spaces before anything is mapped. -/
def Space.initial (s : Kernel) : Space where
  maps := fun _ _ => none
  table := fun _ _ => none
  status := s.status
  pages := fun _ => ⟨.priv, 1, defaultFlags, false, fun _ => 0⟩
  anons := fun _ => ⟨defaultFlags, false, none⟩
  sharedPages := fun _ _ => none
  next := s.next

theorem Space.initial_good (s : Kernel) : (Space.initial s).Good := by
  constructor
  case agrees => exact fun _ _ => rfl
  case entries =>
    intro p a e he
    cases he
  case pagesOk =>
    refine ⟨?_, ?_, ?_⟩
    · intro o d hd
      cases hd
    · intro file offset d hd
      cases hd
    · intro d hd
      cases hd
  case unique =>
    intro p a d he
    cases he

theorem initial_sim (h : Initial s) : Sim s (Space.initial s) 0 0 0 := by
  have hmaps : s.maps = fun _ _ => none := by
    funext p a
    show (s.procs p).memorymap a = none
    rw [(h.procs p).1]
  have hholder : ∀ i, s.holder i = none := by
    intro i
    cases i with
    | slot q b =>
        show (s.maps q b).bind _ = none
        rw [hmaps]
        rfl
    | anon o =>
        show (s.anons o).bind _ = none
        rw [h.anons]
        rfl
    | cache file offset => exact h.sharedPages file offset
    | handler q =>
        show (s.procs q).status.held = none
        cases (h.procs q).2.2 with
        | inl hq => rw [hq]; rfl
        | inr hq => rw [hq]; rfl
  have hnone : ∀ (α : Type) (f : Nat × Nat → Option α), (∀ i, f i = none) → Finite f := by
    intro α f hf
    rw [show f = fun _ => none from funext hf]
    exact finite_none
  have hzero : ∀ {ι α : Type} (f : ι → Option α) (d : α), (∀ i, f i = none) → refs f d = 0 := by
    intro ι α f d hf
    apply refs_eq_zero
    intro i hi
    rw [hf i] at hi
    cases hi
  -- an empty map maps no page and shares none
  have hbind : ∀ {α : Type} (f : MemoryEntry → Option α) (i : Nat × Nat),
      (s.maps i.1 i.2).bind f = none := by
    intro α f i
    rw [hmaps]
    rfl
  have hmapped : ∀ i, mapped s.maps i = none := hbind MemoryEntry.held
  have hsharers : ∀ i, sharers s.maps i = none := hbind MemoryEntry.sharedPtr
  constructor
  case accounted =>
    constructor
    case holderFinite =>
      rw [show s.holder = fun _ => none from funext hholder]
      exact finite_none
    case sharersFinite => exact hnone _ _ hsharers
    case objects => intro d D hd; rw [h.pages] at hd; cases hd
    case mappings => intro d D hd; rw [h.pages] at hd; cases hd
    case dead => intro d _; rw [hzero _ d hholder]; rfl
    case anons => intro o O ho; rw [h.anons] at ho; cases ho
    case deadAnons => intro o _; rw [hzero _ o hsharers]; rfl
    case fresh => intro d _; exact ⟨h.pages d, h.anons d, by rw [hzero _ d hmapped]; rfl⟩
    case used => intro d D hd; rw [h.pages] at hd; cases hd
    case frames => intro d e D E hd; rw [h.pages] at hd; cases hd
  case maps => exact hmaps.symm
  case table =>
    intro p a
    rw [(h.procs p).2.1]
    rfl
  case tableLt => intro p a e he; cases he
  case status => rfl
  case absent => intro p _; exact ⟨rfl, rfl⟩
  case pages => intro d D hd; rw [h.pages] at hd; cases hd
  case contents => intro d D hd; rw [h.pages] at hd; cases hd
  case anons => intro o O ho; rw [h.anons] at ho; cases ho
  case sharedPages =>
    funext file offset
    exact (h.sharedPages file offset).symm
  case next => rfl

/-- What every reachable address space has. -/
structure Space.Valid (v : Space) : Prop extends v.Good where
  finite : Finite (mapped v.maps)
  absent : ∀ p, v.status p = .absent → ∀ b, v.maps p b = none

theorem Sim.valid (h : Sim s v 0 0 0) (hv : v.Good) : v.Valid where
  toGood := hv
  finite := by
    rw [h.maps]
    exact h.accounted.mappedFinite
  absent p hp b := congrFun (h.absent p hp).1 b

/-- **Pages have frames as long as `palloc` does not fail.** -/
theorem Space.Framed.step (h : v.Framed) (hv : v.Valid) {e : Event} (hst : Space.Step m v e v')
    (he : e.Allocated) : v'.Framed := by
  have hkeep : ∀ w : Space, w.pages = v.pages → w.Framed := by
    intro w hw d
    rw [hw]
    exact h d
  cases hst with
  | @nullPages p a n _ => exact hkeep _ (v.nullPages_spec p a n).2.pages
  | @allocPages p a n flags prot _ =>
      by_cases hshared : flags.testBit 0 = true ∧ prot ≠ 0
      · exact hkeep _ (v.allocShared_spec p a n hshared).pages
      · exact hkeep _ (v.allocPrivate_spec p a n hshared).2.pages
  | @filePages p a n file offset shared write execute _ =>
      exact hkeep _ (v.filePages_spec p a n file offset shared write execute).2.pages
  | @unmapPages p a n _ => exact hkeep _ (v.unmapPages_spec p a n).2.pages
  | @pageFault p addr code frame mem _ _ =>
      obtain ⟨r, w, hf, heq⟩ := Space.pageFault_cases hv.toGood m p addr code frame mem
      have hw := hf.framed h he
      rw [heq]
      split
      · exact hw
      · exact hw
  | @fork p child keys hp hchild hnodup hkeys =>
      obtain ⟨-, hforked, -⟩ := Space.fork_spec hv.toGood hp hchild (hv.absent child hchild) hnodup hkeys
      intro d
      rw [(hforked.pages d).2.1]
      exact h d
  | userRead _ _ _ => exact h
  | @userWrite p a o d b _ _ =>
      intro x
      rw [Space.setByte_pages]
      split
      · exact h x
      · exact h x

/-- **What every history of address spaces keeps, every run of the kernel
has.** -/
theorem run_rule {s₀ : Kernel} (hinit : Initial s₀) (I : List Event → Space → Prop)
    (h₀ : I [] (Space.initial s₀))
    (hstep : ∀ hist v e v', v.Valid → v'.Valid → I hist v → Space.Step m v e v' → I (e :: hist) v')
    {hist : List Event} (hrun : Run (Step m) s₀ hist s) :
    ∃ v, Sim s v 0 0 0 ∧ v.Valid ∧ I hist v := by
  apply Run.historyInvariant (fun hist s => ∃ v, Sim s v 0 0 0 ∧ v.Valid ∧ I hist v) _ _ hrun
  · have hsim := initial_sim hinit
    exact ⟨_, hsim, hsim.valid (Space.initial_good s₀), h₀⟩
  · intro hist s e s' hI hst
    obtain ⟨v, hsim, hv, hI⟩ := hI
    obtain ⟨v', hst', hsim', hv'⟩ := hsim.step hv.toGood hst
    have hv' := hsim'.valid hv'
    exact ⟨v', hsim', hv', hstep hist v e v' hv hv' hI hst'⟩

/-- Every reachable kernel is some reachable address space. -/
theorem run_related {s₀ : Kernel} (hinit : Initial s₀) {hist : List Event}
    (hrun : Run (Step m) s₀ hist s) : ∃ v, Sim s v 0 0 0 ∧ v.Valid := by
  obtain ⟨v, hsim, hv, -⟩ := run_rule hinit (fun _ _ => True) trivial
    (fun _ _ _ _ _ _ _ _ => trivial) hrun
  exact ⟨v, hsim, hv⟩

/-! ## §3. Memory maps and page tables. -/

/-- The entry of a `MEMORY` or `FILE_MEMORY` slot is in the page table. -/
theorem Sim.pager_of_held (h : Sim s v 0 0 0) (hv : v.Good) {e : MemoryEntry} {d : PagePtr}
    (he : (s.procs p).memorymap a = some e) (hd : e.held = some d) :
    ∃ D flags, s.pages d = some D ∧ (s.procs p).pager a = some (D.addr, flags) := by
  have he' : v.maps p a = some e := by
    rw [h.maps]
    exact he
  obtain ⟨D, hD⟩ := h.slot_live zero_nonneg he' hd
  rw [h.table, hv.agrees, he']
  cases e with
  | memory x shared =>
      have hxd : x = d := Option.some.inj hd
      subst hxd
      refine ⟨D, { (v.pages x).flags with present := true }, hD, ?_⟩
      rw [← (h.pages x D hD).1]
      rfl
  | fileMemory f shared =>
      have hxd : f.page = d := Option.some.inj hd
      subst hxd
      refine ⟨D, { f.flags with present := true }, hD, ?_⟩
      rw [← (h.pages f.page D hD).1]
      rfl
  | anonymous flags zero => cases hd
  | sharedAnonymous o => cases hd
  | file f => cases hd
  | empty => cases hd

theorem Sim.held_of_pager (h : Sim s v 0 0 0) (hv : v.Good) {pte : Nat × PageFlags}
    (ht : (s.procs p).pager a = some pte) :
    ∃ e d, (s.procs p).memorymap a = some e ∧ e.held = some d := by
  rw [h.table] at ht
  cases hte : v.table p a with
  | none => rw [hte] at ht; cases ht
  | some te =>
      obtain ⟨e, he, hd⟩ := hv.table_held hte
      refine ⟨e, te.1, ?_, hd⟩
      rw [h.maps] at he
      exact he

/-- **Memory map and page table agree.**  In every reachable state, for every
page below `KERNEL_START`: the page-table entry is present iff the memory map
has a `MEMORY` or `FILE_MEMORY` entry there, and then it names the frame of the
page of that entry; and the count of every page object is the number of
(process, address) pairs whose entry holds it. -/
theorem memory_map_and_page_table_agree {s₀ : Kernel} (hinit : Initial s₀) {hist : List Event}
    (hrun : Run (Step m) s₀ hist s) :
    (∀ p a, a * 2 ^ 12 < kernelStart →
      ((s.procs p).pager a ≠ none ↔
        (∃ d shared, (s.procs p).memorymap a = some (.memory d shared))
          ∨ ∃ f shared, (s.procs p).memorymap a = some (.fileMemory f shared))
      ∧ ∀ e d, (s.procs p).memorymap a = some e → e.held = some d →
        ∃ D flags, s.pages d = some D ∧ (s.procs p).pager a = some (D.addr, flags))
    ∧ ∀ d D, s.pages d = some D →
      {i : Nat × Nat | ∃ e, (s.procs i.1).memorymap i.2 = some e ∧ e.held = some d}.Finite
        ∧ D.refCount
          = {i : Nat × Nat | ∃ e, (s.procs i.1).memorymap i.2 = some e ∧ e.held = some d}.ncard := by
  obtain ⟨v, hsim, hv⟩ := run_related hinit hrun
  refine ⟨?_, ?_⟩
  · intro p a _
    refine ⟨⟨?_, ?_⟩, fun e d he hd => hsim.pager_of_held hv.toGood he hd⟩
    · intro hpresent
      obtain ⟨pte, hpte⟩ := Option.ne_none_iff_exists'.mp hpresent
      obtain ⟨e, d, he, hd⟩ := hsim.held_of_pager hv.toGood hpte
      cases e with
      | memory x shared => exact Or.inl ⟨x, shared, he⟩
      | fileMemory f shared => exact Or.inr ⟨f, shared, he⟩
      | anonymous flags zero => cases hd
      | sharedAnonymous o => cases hd
      | file f => cases hd
      | empty => cases hd
    · intro hentry
      have hsome : ∃ e d, (s.procs p).memorymap a = some e ∧ e.held = some d := by
        cases hentry with
        | inl hm => obtain ⟨d, shared, he⟩ := hm; exact ⟨_, d, he, rfl⟩
        | inr hf => obtain ⟨f, shared, he⟩ := hf; exact ⟨_, f.page, he, rfl⟩
      obtain ⟨e, d, he, hd⟩ := hsome
      obtain ⟨D, flags, -, hpager⟩ := hsim.pager_of_held hv.toGood he hd
      rw [hpager]
      exact Option.some_ne_none _
  · intro d D hD
    have hset : {i : Nat × Nat | ∃ e, (s.procs i.1).memorymap i.2 = some e ∧ e.held = some d}
        = {i | mapped s.maps i = some d} := by
      ext i
      exact Option.bind_eq_some_iff.symm
    rw [hset]
    refine ⟨hsim.accounted.mappedFinite.positions d, ?_⟩
    have hcount := hsim.accounted.mappings d D hD
    have hzero : (0 : PagePtr → Int) d = 0 := rfl
    show D.refCount = refs (mapped s.maps) d
    omega

/-- Process 0 runs and nothing is mapped. -/
def Kernel.boot : Kernel where
  pages := fun _ => none
  anons := fun _ => none
  procs := fun p => .ofStatus (if p = 0 then .running else .absent)
  sharedPages := fun _ _ => none
  mem := fun _ _ => 0
  used := fun _ => false
  freed := []
  next := 0

theorem Kernel.boot_initial : Initial Kernel.boot := by
  refine ⟨fun _ => rfl, fun _ => rfl, ?_, fun _ _ => rfl⟩
  intro p
  refine ⟨rfl, rfl, ?_⟩
  show (if p = 0 then Status.running else Status.absent) = .absent
    ∨ (if p = 0 then Status.running else Status.absent) = .running
  split
  · exact Or.inr rfl
  · exact Or.inl rfl

/-- A page is mapped and touched: the page table names its frame. -/
theorem memory_map_and_page_table_agree_first_touch :
    ∃ D flags, ((Kernel.boot.allocPages 0 5 1 2 3).pageFault ⟨true, fun _ _ => none⟩ 0 (5 * 2 ^ 12) 2
        7).pages 0 = some D
      ∧ (((Kernel.boot.allocPages 0 5 1 2 3).pageFault ⟨true, fun _ _ => none⟩ 0 (5 * 2 ^ 12) 2
        7).procs 0).pager 5 = some (D.addr, flags) := by
  have hrun : Run (Step ⟨true, fun _ _ => none⟩) Kernel.boot
      [.pageFault 0 (5 * 2 ^ 12) 2 7, .allocPages 0 5 1 2 3]
      ((Kernel.boot.allocPages 0 5 1 2 3).pageFault ⟨true, fun _ _ => none⟩ 0 (5 * 2 ^ 12) 2 7) :=
    .step (.step .init (.allocPages rfl)) (.pageFault rfl (Or.inr rfl))
  exact ((memory_map_and_page_table_agree Kernel.boot_initial hrun).1 0 5 (by decide)).2
    (.memory 0 false) 0 rfl rfl

end MierOS.Tasking
