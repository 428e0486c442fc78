/-
  MierOS.Memory.BootHeap
  **THE PAGES UNDER `malloc`**: `liballoc_plugs.cpp`.

  `liballoc_alloc` hands out runs of pages of the static `initial_heap`, first
  fit over a bitmap with a hint, and goes to the active pager when there is no
  run.  On that way it makes a COPY of the pager, and the destructor of the copy
  takes the pager out of `Pager::pagers`.

  Main results: `boot_heap_first_fit`, `heap_growth_keeps_pagers_iff`.
-/
import MierOS.Lib.FirstFit
import MierOS.Memory.KernelSpace

namespace MierOS.Memory.BootHeap

open Lib Lib.FirstFit
open Memory.Virtual Memory.Virtual.Paging

/-! ## §1. The bitmap. -/

/-- `HEAP_SIZE`. -/
def heapSize : Nat := 1024 * 1024 * 16

/-- `HEAP_PAGE_SIZE`. -/
def heapPageSize : Nat := heapSize / 4096

/-- `heap_usage_bitmap`, as one bit per page, and `heap_first_potential_page`. -/
structure Heap where
  used : Nat → Bool
  firstPotentialPage : Nat

namespace Heap

/-- `init_heap()`. -/
def init : Heap := ⟨fun _ => false, 0⟩

/-- `set_page_used(page_idx, status)`. -/
def setPageUsed (h : Heap) (pageIdx : Nat) (status : Bool) : Heap :=
  { h with used := fun p => if p = pageIdx then status else h.used p }

/-- `for(i = 0; i < page_count; ++i) set_page_used(page + i, status)`. -/
def setPagesUsed (h : Heap) (page pageCount : Nat) (status : Bool) : Heap :=
  (List.range pageCount).foldl (fun h i => h.setPageUsed (page + i) status) h

/-- The search loop of `liballoc_alloc` from `page`. -/
def allocLoop (h : Heap) (pageCount : Nat) : Nat → Nat → Option Nat
  | 0, _ => none
  | fuel + 1, page =>
      if page < heapPageSize then
        match (List.range pageCount).find? fun i =>
            decide (i + page ≥ heapPageSize) || h.used (page + i) with
        | none => some page
        | some i =>
            -- at the end of the heap `page` is set to leave the loop
            let page := if i + page ≥ heapPageSize then heapPageSize else page + i
            allocLoop h pageCount fuel (page + 1)
      else none

/-- What `liballoc_alloc` does with the block it found. -/
def take (h : Heap) (page pageCount : Nat) : Heap :=
  { h.setPagesUsed page pageCount true with
    firstPotentialPage :=
      if h.firstPotentialPage = page then page + pageCount else h.firstPotentialPage }

/-- The part of `liballoc_alloc` on the local heap. -/
def alloc (h : Heap) (pageCount : Nat) : Option (Nat × Heap) :=
  if h.firstPotentialPage < heapPageSize then
    (h.allocLoop pageCount heapPageSize h.firstPotentialPage).map fun page =>
      (page, h.take page pageCount)
  else none

/-- The part of `liballoc_free` on the local heap. -/
def free (h : Heap) (page pageCount : Nat) : Heap :=
  { h.setPagesUsed page pageCount false with
    firstPotentialPage :=
      if page < h.firstPotentialPage then page else h.firstPotentialPage }

end Heap

/-! ## §2. `liballoc_alloc` and `liballoc_free`. -/

/-- The heap, the PML4s of the pagers in `Pager::pagers`, in order, and `cr3`. -/
structure World where
  heap : Heap
  pagers : List Nat
  cr3 : Nat

namespace World

/-- `Pager::active()`; without a match it loops for ever. -/
def active (w : World) : Option Nat := w.pagers.find? fun pml4 => pml4 = w.cr3

/-- `~Pager()` of a pager with the given PML4. -/
def destroyPager (w : World) (pml4 : Nat) : World :=
  { w with pagers := w.pagers.eraseP fun other => other = pml4 }

/-- `Pager pager = Pager::active(); Locker lock(pager); ...`: the copy is destroyed at
the end of the call. -/
def throughPager (w : World) : Option World := w.active.map w.destroyPager

/-- `liballoc_alloc(page_count)`, where `kalloc` is what `pager.kalloc(page_count)`
answers. -/
def liballocAlloc (initialHeap : Nat) (w : World) (pageCount kalloc : Nat) :
    Option (Nat × World) :=
  match w.heap.alloc pageCount with
  | some (page, heap) => some (initialHeap + (page <<< 12), { w with heap := heap })
  | none => w.throughPager.map fun w => (kalloc, w)

/-- `liballoc_free(ptr, page_count)`. -/
def liballocFree (initialHeap : Nat) (w : World) (ptr pageCount : Nat) : Option World :=
  if ptr ≥ initialHeap ∧ ptr < initialHeap + heapSize then
    let page := (ptr - initialHeap) >>> 12
    some { w with heap := w.heap.free page pageCount }
  else w.throughPager

end World

/-! ## §3. The search. -/

/-- Page `p` is not to be had: it is used, or behind the end of the heap. -/
def occupied (h : Heap) (p : Nat) : Bool := decide (heapPageSize ≤ p) || h.used p

/-- No free page lies below the hint. -/
def HintOk (h : Heap) : Prop := ∀ p, p < h.firstPotentialPage → occupied h p = true

theorem setPagesUsed_used (h : Heap) (page n : Nat) (status : Bool) (p : Nat) :
    (h.setPagesUsed page n status).used p
      = if page ≤ p ∧ p < page + n then status else h.used p := by
  induction n with
  | zero =>
      rw [if_neg (by omega)]
      rfl
  | succ n ih =>
      unfold Heap.setPagesUsed at ih ⊢
      rw [List.range_succ, List.foldl_append, List.foldl_cons, List.foldl_nil]
      show (if p = page + n then status else _) = _
      rw [ih]
      by_cases hp : p = page + n
      · rw [if_pos hp, if_pos (by omega)]
      · rw [if_neg hp]
        by_cases hin : page ≤ p ∧ p < page + n
        · rw [if_pos hin, if_pos (by omega)]
        · rw [if_neg hin, if_neg (by omega)]

theorem occupied_of_le {h : Heap} {p : Nat} (hp : heapPageSize ≤ p) : occupied h p = true := by
  unfold occupied
  rw [decide_eq_true hp]
  rfl

theorem occupied_of_lt {h : Heap} {p : Nat} (hp : p < heapPageSize) :
    occupied h p = h.used p := by
  unfold occupied
  rw [decide_eq_false (Nat.not_le_of_lt hp)]
  rfl

/-- A run of free pages lies inside the heap. -/
theorem FreeRun.inside {h : Heap} {n b : Nat} (hn : 1 ≤ n) (hfree : FreeRun (occupied h) n b) :
    b + n ≤ heapPageSize := by
  have hlast := hfree (n - 1) (by omega)
  by_contra hout
  rw [occupied_of_le (by omega)] at hlast
  exact absurd hlast (by decide)

/-- **The search loop is the first-fit scan** over the pages of the heap. -/
theorem allocLoop_eq_scan (h : Heap) {n : Nat} (hn : 1 ≤ n) :
    ∀ fuel page, h.allocLoop n fuel page = scan (occupied h) n fuel page := by
  intro fuel
  induction fuel with
  | zero => intro page; rfl
  | succ fuel ih =>
      intro page
      have hprobe : (fun i => decide (i + page ≥ heapPageSize) || h.used (page + i))
          = fun i => occupied h (page + i) := by
        funext i
        unfold occupied
        rw [Nat.add_comm i page]
      by_cases hpage : page < heapPageSize
      · unfold Heap.allocLoop scan firstUsed
        rw [if_pos hpage, hprobe]
        cases (List.range n).find? fun i => occupied h (page + i) with
        | none => rfl
        | some i =>
            dsimp only
            rw [ih]
            by_cases hend : i + page ≥ heapPageSize
            · -- both searches have left the heap
              rw [if_pos hend, scan_eq_none hn (fun p hp => occupied_of_le (by omega)),
                scan_eq_none hn (fun p hp => occupied_of_le (by omega))]
            · rw [if_neg hend]
      · rw [scan_eq_none hn (fun p hp => occupied_of_le (by omega))]
        unfold Heap.allocLoop
        rw [if_neg hpage]

theorem take_used (h : Heap) (page n p : Nat) :
    (h.take page n).used p = if page ≤ p ∧ p < page + n then true else h.used p :=
  setPagesUsed_used h page n true p

theorem free_used (h : Heap) (page n p : Nat) :
    (h.free page n).used p = if page ≤ p ∧ p < page + n then false else h.used p :=
  setPagesUsed_used h page n false p

/-- **A run is found, and it is the lowest.** -/
theorem alloc_eq_some {h : Heap} (hok : HintOk h) {n a : Nat} (hn : 1 ≤ n)
    (hfirst : IsFirstFit (occupied h) n a) : h.alloc n = some (a, h.take a n) := by
  have hle := FreeRun.hint_le hn hok hfirst.1
  have hinside := FreeRun.inside hn hfirst.1
  unfold Heap.alloc
  rw [if_pos (by omega), allocLoop_eq_scan h hn, scan_of_hint hn hok hfirst (by omega)]
  rfl

/-- **Whether the heap serves a call**, from any state. -/
theorem alloc_eq_none_iff (h : Heap) (n : Nat) :
    h.alloc n = none
      ↔ ¬ ∃ b, h.firstPotentialPage ≤ b ∧ b < heapPageSize ∧ FreeRun (occupied h) n b := by
  unfold Heap.alloc
  by_cases hfirst : h.firstPotentialPage < heapPageSize
  · rw [if_pos hfirst, Option.map_eq_none_iff]
    cases n with
    | zero =>
        -- a request for no pages is served where the search starts
        have hloop : h.allocLoop 0 heapPageSize h.firstPotentialPage
            = some h.firstPotentialPage := by
          show (if h.firstPotentialPage < heapPageSize then some h.firstPotentialPage else none) = _
          rw [if_pos hfirst]
        rw [hloop]
        constructor
        · intro hnone
          exact absurd hnone (by simp)
        · intro hno
          exact absurd ⟨h.firstPotentialPage, Nat.le_refl _, hfirst,
            fun i hi => absurd hi (Nat.not_lt_zero i)⟩ hno
    | succ n =>
        rw [allocLoop_eq_scan h (Nat.succ_pos n)]
        constructor
        · intro hnone ⟨b, hle, hlt, hfree⟩
          classical
          -- the lowest run at or above the hint is found
          have hex : ∃ b, h.firstPotentialPage ≤ b ∧ FreeRun (occupied h) (n + 1) b :=
            ⟨b, hle, hfree⟩
          obtain ⟨hle', hfree'⟩ := Nat.find_spec hex
          have hinside := FreeRun.inside (Nat.succ_pos n) hfree'
          have hsome : scan (occupied h) (n + 1) heapPageSize h.firstPotentialPage = some _ :=
            scan_complete hfree' hle' (fun c hc hcb hrun => Nat.find_min hex hcb ⟨hc, hrun⟩)
              (by omega)
          rw [hnone] at hsome
          exact absurd hsome (by simp)
        · intro hno
          cases hscan : scan (occupied h) (n + 1) heapPageSize h.firstPotentialPage with
          | none => rfl
          | some a =>
              obtain ⟨hle, hfree, -⟩ := scan_sound hscan
              have hinside := FreeRun.inside (Nat.succ_pos n) hfree
              exact absurd ⟨a, hle, by omega, hfree⟩ hno
  · rw [if_neg hfirst]
    refine ⟨fun _ => ?_, fun _ => rfl⟩
    rintro ⟨b, hle, hlt, -⟩
    omega

theorem HintOk.take {h : Heap} (hok : HintOk h) {n a : Nat} : HintOk (h.take a n) := by
  intro p hp
  unfold occupied
  rw [take_used]
  by_cases hin : a ≤ p ∧ p < a + n
  · rw [if_pos hin, Bool.or_true]
  · rw [if_neg hin]
    refine hok p ?_
    -- outside the block, below the new hint is below the old one
    have hp' : p < if h.firstPotentialPage = a then a + n else h.firstPotentialPage := hp
    split at hp' <;> omega

theorem HintOk.free {h : Heap} (hok : HintOk h) {n a : Nat} : HintOk (h.free a n) := by
  intro p hp
  have hp' : p < if a < h.firstPotentialPage then a else h.firstPotentialPage := hp
  unfold occupied
  rw [free_used]
  by_cases hin : a ≤ p ∧ p < a + n
  · split at hp' <;> omega
  · rw [if_neg hin]
    refine hok p ?_
    split at hp' <;> omega

/-! ## §4. Runs. -/

/-- The static `initial_heap`: page aligned, in the kernel's image. -/
structure InitialHeap where
  addr : Nat
  aligned : addr % 2 ^ 12 = 0
  above : kernelStart ≤ addr
  below : addr + heapSize ≤ kernelAddr (windowPage - kernelPage)

/-- `ptr` points into `initial_heap`. -/
def InHeap (ih : InitialHeap) (ptr : Nat) : Prop := ptr ≥ ih.addr ∧ ptr < ih.addr + heapSize

instance (ih : InitialHeap) (ptr : Nat) : Decidable (InHeap ih ptr) :=
  inferInstanceAs (Decidable (_ ∧ _))

/-- The heap page `ptr` points to. -/
def heapPage (ih : InitialHeap) (ptr : Nat) : Nat := (ptr - ih.addr) >>> 12

/-- A pager in order, in whose space the heap is mapped, answers `ptr` to
`kalloc(n)`. -/
def PagerAnswers (ih : InitialHeap) (n ptr : Nat) : Prop :=
  ∃ s p s', Good s ∧ Locked s p ∧ s.kalloc p n = some (ptr, s')
    ∧ ∀ i, i < heapPageSize → (translate s p (pageOf (ih.addr + i * 0x1000))).isSome = true

/-- **The pager hands out other pages**: those of the heap are present. -/
theorem PagerAnswers.outside {ih : InitialHeap} {n ptr : Nat} (h : PagerAnswers ih n ptr)
    (hn : 1 ≤ n) : ¬ InHeap ih ptr := by
  obtain ⟨s, p, s', hg, hp, hs, hmapped⟩ := h
  intro ⟨hlo, hhi⟩
  have habove := ih.above
  have hbelow := ih.below
  have haligned := ih.aligned
  unfold kalloc at hs
  simp only [Option.bind_eq_bind, Option.bind_eq_some_iff, Prod.exists] at hs
  obtain ⟨start, s₁, hfind, hs⟩ := hs
  -- address 0 is not in the heap, so the pages were mapped
  obtain ⟨hptr, h40⟩ : ptr = start ∧ n ≤ 2 ^ 40 := by
    split at hs
    · simp only [pure, Option.some.injEq, Prod.mk.injEq] at hs
      unfold kernelStart at habove
      omega
    · obtain ⟨s₂, hloop, hs⟩ := Option.bind_eq_some_iff.mp hs
      simp only [pure, Option.some.injEq, Prod.mk.injEq] at hs
      exact ⟨hs.1.symm, kallocLoop_le hloop⟩
  rw [getFreeRange_eq _ _ _ (by omega)] at hfind
  obtain ⟨-, hstart, hfree⟩ := getFreeRangeLoop_steps _ _ s hg hp hg.aligned hfind
  rw [hptr] at hlo hhi
  -- the page is one of the heap, so it was present
  have hpage := hmapped ((start - ih.addr) / 0x1000) (by
    unfold heapPageSize heapSize at *
    omega)
  have heq : ih.addr + (start - ih.addr) / 0x1000 * 0x1000 = start := by omega
  have h64 : start % 2 ^ 64 = start := Nat.mod_eq_of_lt (by
    unfold kernelAddr kernelStart windowPage kernelPage at hbelow
    omega)
  have hwindow : pageOf start < windowPage := by
    rw [pageOf_eq]
    unfold kernelAddr kernelStart windowPage kernelPage at *
    omega
  rw [heq] at hpage
  have hnone := hfree (by unfold kernelStart at habove; omega) _ (views_translate s) 0 hn
  rw [Nat.zero_mul, Nat.add_zero, h64] at hnone
  rw [hnone hwindow] at hpage
  exact absurd hpage (by decide)

/-- The kernel and the blocks in use: where they start and their page counts. -/
structure Session where
  world : World
  live : List (Nat × Nat)

/-- A call and its block. -/
inductive HeapEvent
  | alloc (ptr pageCount : Nat)
  | free (ptr pageCount : Nat)
  deriving Repr, DecidableEq

/-- `liballoc_alloc` of at least one page, or `liballoc_free` of a block in use with
its own page count. -/
inductive HeapStep (ih : InitialHeap) : Session → HeapEvent → Session → Prop
  | alloc {w w' : World} {live : List (Nat × Nat)} {n ptr kalloc : Nat} : 1 ≤ n →
      (w.heap.alloc n = none → PagerAnswers ih n kalloc) →
      w.liballocAlloc ih.addr n kalloc = some (ptr, w') →
      HeapStep ih ⟨w, live⟩ (.alloc ptr n) ⟨w', (ptr, n) :: live⟩
  | free {w w' : World} {live : List (Nat × Nat)} {ptr n : Nat} : (ptr, n) ∈ live →
      w.liballocFree ih.addr ptr n = some w' →
      HeapStep ih ⟨w, live⟩ (.free ptr n) ⟨w', live.erase (ptr, n)⟩

/-- Two blocks of the heap share no byte. -/
def Apart (ih : InitialHeap) (b c : Nat × Nat) : Prop :=
  InHeap ih b.1 → InHeap ih c.1 → b.1 + b.2 * 4096 ≤ c.1 ∨ c.1 + c.2 * 4096 ≤ b.1

/-- A block of the heap: whole pages, inside, and marked. -/
structure Placed (ih : InitialHeap) (h : Heap) (b : Nat × Nat) : Prop where
  pos : 1 ≤ b.2
  aligned : InHeap ih b.1 → b.1 = ih.addr + heapPage ih b.1 * 4096
  inside : InHeap ih b.1 → heapPage ih b.1 + b.2 ≤ heapPageSize
  used : InHeap ih b.1 → ∀ i, i < b.2 → h.used (heapPage ih b.1 + i) = true

/-- **The invariant of the heap.** -/
structure HeapOk (ih : InitialHeap) (s : Session) : Prop where
  hint : HintOk s.world.heap
  placed : ∀ b, b ∈ s.live → Placed ih s.world.heap b
  apart : s.live.Pairwise (Apart ih)

section Step

variable {ih : InitialHeap} {w w' : World} {live : List (Nat × Nat)}

theorem Apart.symm {b c : Nat × Nat} (h : Apart ih b c) : Apart ih c b :=
  fun hc hb => (h hb hc).symm

/-- Blocks are apart when their pages are. -/
theorem apart_iff {h h' : Heap} {b c : Nat × Nat} (hb : Placed ih h b) (hc : Placed ih h' c) :
    Apart ih b c ↔ (InHeap ih b.1 → InHeap ih c.1 →
      heapPage ih b.1 + b.2 ≤ heapPage ih c.1 ∨ heapPage ih c.1 + c.2 ≤ heapPage ih b.1) := by
  unfold Apart
  refine forall₂_congr fun hbin hcin => ?_
  have hb' := hb.aligned hbin
  have hc' := hc.aligned hcin
  omega

theorem Placed.mono {h h' : Heap} {b : Nat × Nat} (hb : Placed ih h b)
    (hused : InHeap ih b.1 → ∀ i, i < b.2 → h.used (heapPage ih b.1 + i) = true →
      h'.used (heapPage ih b.1 + i) = true) : Placed ih h' b :=
  ⟨hb.pos, hb.aligned, hb.inside, fun hin i hi => hused hin i hi (hb.used hin i hi)⟩

theorem throughPager_heap (h : w.throughPager = some w') : w'.heap = w.heap := by
  obtain ⟨pml4, -, rfl⟩ := Option.map_eq_some_iff.mp h
  rfl

/-- A heap that serves a call serves it with the first fit. -/
theorem alloc_cases {h h' : Heap} (hok : HintOk h) {n page : Nat} (hn : 1 ≤ n)
    (hs : h.alloc n = some (page, h')) :
    IsFirstFit (occupied h) n page ∧ h' = h.take page n := by
  have hsome : h.alloc n ≠ none := by
    rw [hs]
    exact Option.some_ne_none _
  rw [Ne, alloc_eq_none_iff, not_not] at hsome
  obtain ⟨b, -, -, hfree⟩ := hsome
  obtain ⟨a, hfirst⟩ := exists_isFirstFit hfree
  rw [alloc_eq_some hok hn hfirst] at hs
  simp only [Option.some.injEq, Prod.mk.injEq] at hs
  rw [← hs.1]
  exact ⟨hfirst, hs.2.symm⟩

/-- The block at heap page `a`. -/
theorem heapPage_block {a n : Nat} (hn : 1 ≤ n) (ha : a + n ≤ heapPageSize) :
    InHeap ih (ih.addr + (a <<< 12)) ∧ heapPage ih (ih.addr + (a <<< 12)) = a := by
  unfold InHeap heapPage heapPageSize heapSize at *
  rw [Nat.shiftLeft_eq, Nat.shiftRight_eq_div_pow]
  omega

/-- **A block from the heap.** -/
theorem HeapOk.allocHeap (hok : HeapOk ih ⟨w, live⟩) {n a : Nat} (hn : 1 ≤ n)
    (hfirst : IsFirstFit (occupied w.heap) n a) :
    HeapOk ih ⟨{ w with heap := w.heap.take a n }, (ih.addr + (a <<< 12), n) :: live⟩ := by
  have hinside := FreeRun.inside hn hfirst.1
  obtain ⟨hin, hpage⟩ : InHeap ih (ih.addr + (a <<< 12)) ∧ heapPage ih (ih.addr + (a <<< 12)) = a :=
    heapPage_block hn hinside
  have hnew : Placed ih (w.heap.take a n) (ih.addr + (a <<< 12), n) := by
    refine ⟨hn, fun _ => ?_, fun _ => ?_, fun _ i hi => ?_⟩
    · rw [hpage, Nat.shiftLeft_eq]
    · rw [hpage]
      exact hinside
    · rw [hpage, take_used, if_pos ⟨Nat.le_add_right _ _, Nat.add_lt_add_left hi _⟩]
  refine ⟨hok.hint.take, ?_, List.pairwise_cons.mpr ⟨?_, hok.apart⟩⟩
  · intro b hb
    rcases List.mem_cons.mp hb with rfl | hold
    · exact hnew
    · refine (hok.placed b hold).mono fun _ i _ hused => ?_
      rw [take_used, hused]
      exact ite_self _
  · intro c hc
    have hcplaced := hok.placed c hc
    refine (apart_iff hnew hcplaced).mpr fun _ hcin => ?_
    rw [hpage]
    by_contra hover
    -- a page of both would be free and used
    have hpos := hcplaced.pos
    have hcinside := hcplaced.inside hcin
    have hused := hcplaced.used hcin (max a (heapPage ih c.1) - heapPage ih c.1) (by omega)
    have hfree := hfirst.1 (max a (heapPage ih c.1) - a) (by
      have : (ih.addr + (a <<< 12), n).2 = n := rfl
      omega)
    rw [show a + (max a (heapPage ih c.1) - a) = max a (heapPage ih c.1) by omega,
      occupied_of_lt (by omega)] at hfree
    rw [show heapPage ih c.1 + (max a (heapPage ih c.1) - heapPage ih c.1)
      = max a (heapPage ih c.1) by omega, hfree] at hused
    exact absurd hused (by decide)

/-- **A block from the pager**, which is none of the heap's business. -/
theorem HeapOk.allocPager (hok : HeapOk ih ⟨w, live⟩) (hheap : w'.heap = w.heap) {n ptr : Nat}
    (hn : 1 ≤ n) (hout : ¬ InHeap ih ptr) : HeapOk ih ⟨w', (ptr, n) :: live⟩ := by
  refine ⟨?_, ?_, List.pairwise_cons.mpr ⟨fun c _ hin => absurd hin hout, hok.apart⟩⟩
  · show HintOk w'.heap
    rw [hheap]
    exact hok.hint
  · intro b hb
    rcases List.mem_cons.mp hb with rfl | hold
    · exact ⟨hn, fun hin => absurd hin hout, fun hin => absurd hin hout,
        fun hin => absurd hin hout⟩
    · show Placed ih w'.heap b
      rw [hheap]
      exact hok.placed b hold

/-- **Freeing a block** leaves the others as they are. -/
theorem HeapOk.free (hok : HeapOk ih ⟨w, live⟩) {ptr n : Nat} (hmem : (ptr, n) ∈ live)
    (hs : w.liballocFree ih.addr ptr n = some w') : HeapOk ih ⟨w', live.erase (ptr, n)⟩ := by
  have hapart : (live.erase (ptr, n)).Pairwise (Apart ih) :=
    hok.apart.sublist List.erase_sublist
  have hothers : ∀ c, c ∈ live.erase (ptr, n) → Apart ih (ptr, n) c := by
    have hperm := (List.perm_cons_erase hmem).pairwise_iff (R := Apart ih) fun h => h.symm
    exact (List.pairwise_cons.mp (hperm.mp hok.apart)).1
  unfold World.liballocFree at hs
  by_cases hin : InHeap ih ptr
  · rw [if_pos (show ptr ≥ ih.addr ∧ ptr < ih.addr + heapSize from hin), Option.some.injEq] at hs
    rw [← hs]
    refine ⟨hok.hint.free, fun c hc => ?_, hapart⟩
    have hcplaced := hok.placed c (List.mem_of_mem_erase hc)
    refine hcplaced.mono fun hcin i hi hused => ?_
    have hpages := (apart_iff (hok.placed _ hmem) hcplaced).mp (hothers c hc) hin hcin
    rw [free_used, if_neg, hused]
    show ¬ (heapPage ih ptr ≤ _ ∧ _ < heapPage ih ptr + n)
    have hpages : heapPage ih ptr + n ≤ heapPage ih c.1 ∨ heapPage ih c.1 + c.2 ≤ heapPage ih ptr :=
      hpages
    omega
  · rw [if_neg (show ¬ (ptr ≥ ih.addr ∧ ptr < ih.addr + heapSize) from hin)] at hs
    have hheap := throughPager_heap hs
    refine ⟨?_, fun c hc => ?_, hapart⟩
    · show HintOk w'.heap
      rw [hheap]
      exact hok.hint
    · show Placed ih w'.heap c
      rw [hheap]
      exact hok.placed c (List.mem_of_mem_erase hc)

/-- **Step lemma.** -/
theorem HeapOk.step {s s' : Session} {e : HeapEvent} (hok : HeapOk ih s)
    (hst : HeapStep ih s e s') : HeapOk ih s' := by
  cases hst with
  | @alloc w w' live n ptr kalloc hn hpager hs =>
      unfold World.liballocAlloc at hs
      cases halloc : w.heap.alloc n with
      | some found =>
          obtain ⟨page, heap⟩ := found
          rw [halloc] at hs
          simp only [Option.some.injEq, Prod.mk.injEq] at hs
          obtain ⟨rfl, rfl⟩ := hs
          obtain ⟨hfirst, rfl⟩ := alloc_cases hok.hint hn halloc
          exact hok.allocHeap hn hfirst
      | none =>
          rw [halloc] at hs
          obtain ⟨w₁, hthrough, hs⟩ := Option.map_eq_some_iff.mp hs
          obtain ⟨rfl, rfl⟩ := Prod.mk.inj hs
          exact hok.allocPager (throughPager_heap hthrough) hn ((hpager halloc).outside hn)
  | free hmem hs => exact hok.free hmem hs

end Step

/-- **THE BOOT HEAP IS FIRST FIT.**  In every run of `liballoc_alloc` and of
`liballoc_free` of blocks in use: the blocks of the heap are pairwise disjoint and
inside it, no free page lies below the hint, and a call is served from the heap,
at the lowest run of free pages, exactly when there is one; otherwise it goes to
the pager. -/
theorem boot_heap_first_fit (ih : InitialHeap) (pagers : List Nat) (cr3 : Nat)
    {hist : List HeapEvent} {s : Session}
    (hrun : Run (HeapStep ih) ⟨⟨Heap.init, pagers, cr3⟩, []⟩ hist s) :
    s.live.Pairwise (fun b c => InHeap ih b.1 → InHeap ih c.1 →
        b.1 + b.2 * 4096 ≤ c.1 ∨ c.1 + c.2 * 4096 ≤ b.1)
      ∧ (∀ b, b ∈ s.live → InHeap ih b.1 →
        ih.addr ≤ b.1 ∧ b.1 + b.2 * 4096 ≤ ih.addr + heapSize)
      ∧ (∀ page, page < s.world.heap.firstPotentialPage → page < heapPageSize →
        s.world.heap.used page = true)
      ∧ ∀ n kalloc, 1 ≤ n →
        (∀ b, FreeRun (occupied s.world.heap) n b →
          ∃ a w', IsFirstFit (occupied s.world.heap) n a ∧ a + n ≤ heapPageSize
            ∧ s.world.liballocAlloc ih.addr n kalloc = some (ih.addr + (a <<< 12), w'))
        ∧ ((¬ ∃ b, FreeRun (occupied s.world.heap) n b) →
          s.world.liballocAlloc ih.addr n kalloc
            = s.world.throughPager.map fun w => (kalloc, w)) := by
  have hok : HeapOk ih s := by
    refine hrun.invariant (HeapOk ih) ?_ (fun _ _ _ h hst => h.step hst)
    exact ⟨fun p hp => absurd hp (Nat.not_lt_zero p), fun b hb => absurd hb List.not_mem_nil,
      List.Pairwise.nil⟩
  refine ⟨hok.apart, ?_, ?_, ?_⟩
  · intro b hb hin
    have hinside := (hok.placed b hb).inside hin
    have haligned := (hok.placed b hb).aligned hin
    unfold heapPageSize heapSize at *
    omega
  · intro page hlt hsize
    rw [← occupied_of_lt hsize]
    exact hok.hint page hlt
  · intro n kalloc hn
    constructor
    · intro b hb
      obtain ⟨a, hfirst⟩ := exists_isFirstFit hb
      refine ⟨a, { s.world with heap := s.world.heap.take a n }, hfirst,
        FreeRun.inside hn hfirst.1, ?_⟩
      unfold World.liballocAlloc
      rw [alloc_eq_some hok.hint hn hfirst]
    · intro hnone
      have halloc : s.world.heap.alloc n = none :=
        (alloc_eq_none_iff _ n).mpr fun ⟨b, _, _, hfree⟩ => hnone ⟨b, hfree⟩
      unfold World.liballocAlloc
      rw [halloc]

/-- The heap at `KERNEL_START`. -/
def lowHeap : InitialHeap :=
  ⟨kernelStart, by decide, Nat.le_refl _, by decide⟩

theorem boot_heap_first_fit_two_blocks :
    ∃ w, Run (HeapStep lowHeap) ⟨⟨Heap.init, [7], 7⟩, []⟩
        [.free kernelStart 2, .alloc (kernelStart + 0x2000) 1, .alloc kernelStart 2]
        ⟨w, [(kernelStart + 0x2000, 1)]⟩
      ∧ ∀ b, FreeRun (occupied w.heap) 1 b →
        ∃ a w', IsFirstFit (occupied w.heap) 1 a ∧ a + 1 ≤ heapPageSize
          ∧ w.liballocAlloc lowHeap.addr 1 0 = some (lowHeap.addr + (a <<< 12), w') := by
  let h₁ := Heap.init.take 0 2
  let h₂ := h₁.take 2 1
  have hfirst : HeapStep lowHeap ⟨⟨Heap.init, [7], 7⟩, []⟩ (.alloc kernelStart 2)
      ⟨⟨h₁, [7], 7⟩, [(kernelStart, 2)]⟩ := by
    refine @HeapStep.alloc lowHeap _ _ _ 2 _ 0 (by decide) (fun hnone => ?_) rfl
    exact absurd hnone (show some (0, h₁) ≠ none from Option.some_ne_none _)
  have hsecond : HeapStep lowHeap ⟨⟨h₁, [7], 7⟩, [(kernelStart, 2)]⟩
      (.alloc (kernelStart + 0x2000) 1)
      ⟨⟨h₂, [7], 7⟩, [(kernelStart + 0x2000, 1), (kernelStart, 2)]⟩ := by
    refine @HeapStep.alloc lowHeap _ _ _ 1 _ 0 (by decide) (fun hnone => ?_) rfl
    exact absurd hnone (show some (2, h₂) ≠ none from Option.some_ne_none _)
  have hrun : Run (HeapStep lowHeap) ⟨⟨Heap.init, [7], 7⟩, []⟩
      [.free kernelStart 2, .alloc (kernelStart + 0x2000) 1, .alloc kernelStart 2]
      ⟨⟨h₂.free 0 2, [7], 7⟩, [(kernelStart + 0x2000, 1)]⟩ :=
    ((Run.init.step hfirst).step hsecond).step (.free (by decide) rfl)
  exact ⟨_, hrun, fun b hb => ((boot_heap_first_fit lowHeap [7] 7 hrun).2.2.2 1 0 (by decide)).1 b hb⟩

/-! ## §5. The pagers. -/

/-- A call of the heap's page functions; `kalloc` is what the pager would answer. -/
inductive Call
  | alloc (pageCount kalloc : Nat)
  | free (ptr pageCount : Nat)
  deriving Repr, DecidableEq

namespace World

/-- Run one call. -/
def call (initialHeap : Nat) (w : World) : Call → Option World
  | .alloc pageCount kalloc => (w.liballocAlloc initialHeap pageCount kalloc).map Prod.snd
  | .free ptr pageCount => w.liballocFree initialHeap ptr pageCount

/-- Run calls one after the other. -/
def calls (initialHeap : Nat) (w : World) (cs : List Call) : Option World :=
  cs.foldlM (fun w c => w.call initialHeap c) w

/-- The call is for `initial_heap`: some run of free pages is left, or the block lies
inside. -/
def Served (initialHeap : Nat) (w : World) : Call → Prop
  | .alloc pageCount _ => ∃ b, w.heap.firstPotentialPage ≤ b ∧ b < heapPageSize
      ∧ FreeRun (occupied w.heap) pageCount b
  | .free ptr _ => ptr ≥ initialHeap ∧ ptr < initialHeap + heapSize

/-- Every call is for `initial_heap` when its turn comes. -/
def AllServed (initialHeap : Nat) : World → List Call → Prop
  | _, [] => True
  | w, c :: cs => w.Served initialHeap c
      ∧ ∀ w', w.call initialHeap c = some w' → AllServed initialHeap w' cs

section Pagers

variable {initialHeap : Nat} {w w' : World}

/-- **One call**: the heap leaves the pagers alone, the way through the pager takes
one of them away. -/
theorem call_cases (initialHeap : Nat) (w : World) (c : Call) :
    (w.Served initialHeap c ∧ ∃ heap, w.call initialHeap c = some { w with heap := heap })
    ∨ (¬ w.Served initialHeap c ∧ w.call initialHeap c = w.throughPager) := by
  cases c with
  | alloc n kalloc =>
      have hiff := alloc_eq_none_iff w.heap n
      have hcall : w.call initialHeap (.alloc n kalloc)
          = (w.liballocAlloc initialHeap n kalloc).map Prod.snd := rfl
      unfold World.liballocAlloc at hcall
      cases halloc : w.heap.alloc n with
      | some found =>
          rw [halloc] at hiff hcall
          refine Or.inl ⟨?_, found.2, hcall⟩
          exact not_not.mp fun hno => absurd (hiff.mpr hno) (Option.some_ne_none found)
      | none =>
          rw [halloc] at hcall
          refine Or.inr ⟨hiff.mp halloc, ?_⟩
          rw [hcall]
          cases w.throughPager <;> rfl
  | free ptr n =>
      by_cases hin : ptr ≥ initialHeap ∧ ptr < initialHeap + heapSize
      · exact Or.inl ⟨hin, _, if_pos hin⟩
      · exact Or.inr ⟨hin, if_neg hin⟩

/-- The way through the pager makes the list shorter. -/
theorem throughPager_length (h : w.throughPager = some w') :
    w'.pagers.length + 1 = w.pagers.length := by
  obtain ⟨pml4, hactive, rfl⟩ := Option.map_eq_some_iff.mp h
  have hmem := List.mem_of_find?_eq_some hactive
  have hlen := List.length_eraseP_of_mem (p := fun other => decide (other = pml4)) hmem (by simp)
  have hpos := List.length_pos_of_mem hmem
  show (w.pagers.eraseP fun other => decide (other = pml4)).length + 1 = _
  rw [hlen]
  omega

theorem calls_cons (initialHeap : Nat) (w : World) (c : Call) (cs : List Call) :
    w.calls initialHeap (c :: cs) = (w.call initialHeap c).bind fun w => w.calls initialHeap cs :=
  List.foldlM_cons

theorem calls_length (cs : List Call) :
    ∀ {w w' : World}, w.calls initialHeap cs = some w' → w'.pagers.length ≤ w.pagers.length := by
  induction cs with
  | nil =>
      intro w w' h
      injection h with h
      rw [h]
  | cons c cs ih =>
      intro w w' h
      rw [calls_cons] at h
      obtain ⟨m, hm, hrest⟩ := Option.bind_eq_some_iff.mp h
      refine Nat.le_trans (ih hrest) ?_
      rcases call_cases initialHeap w c with ⟨-, heap, hc⟩ | ⟨-, hc⟩
      · rw [hc] at hm
        injection hm with hm
        rw [← hm]
      · rw [hc] at hm
        exact Nat.le_of_succ_le (Nat.le_of_eq (throughPager_length hm))

end Pagers

end World

/-- **HEAP GROWTH AND THE PAGERS.**  A sequence of calls comes back with
`Pager::pagers` as it was, and the active pager still found, exactly when every
call is served from `initial_heap`. -/
theorem heap_growth_keeps_pagers_iff (initialHeap : Nat) (w : World) (cs : List Call) :
    (∃ w', w.calls initialHeap cs = some w' ∧ w'.pagers = w.pagers ∧ w'.active = w.active)
      ↔ w.AllServed initialHeap cs := by
  induction cs generalizing w with
  | nil => exact ⟨fun _ => trivial, fun _ => ⟨w, rfl, rfl, rfl⟩⟩
  | cons c cs ih =>
      rw [World.calls_cons]
      rcases World.call_cases initialHeap w c with ⟨hserved, heap, hc⟩ | ⟨hserved, hc⟩
      · rw [hc, Option.bind_some]
        have hih := ih { w with heap := heap }
        constructor
        · intro h
          refine ⟨hserved, fun w' hw' => ?_⟩
          rw [hc] at hw'
          injection hw' with hw'
          rw [← hw']
          exact hih.mp h
        · exact fun h => hih.mpr (h.2 _ hc)
      · constructor
        · rintro ⟨w', hrun, hsame, -⟩
          rw [hc] at hrun
          obtain ⟨m, hm, hrest⟩ := Option.bind_eq_some_iff.mp hrun
          -- one pager is gone for good
          have hlen := World.throughPager_length hm
          have hle := World.calls_length cs hrest
          rw [hsame] at hle
          omega
        · exact fun h => absurd h.1 hserved

/-- **The first growth takes the pager away**: all pages of the heap are handed out,
and one more is asked for. -/
theorem heap_growth_unregisters :
    ∃ w w', (⟨Heap.init, [7], 7⟩ : World).calls kernelStart [.alloc heapPageSize 0] = some w
      ∧ w.pagers = [7] ∧ w.active = some 7
      ∧ w.calls kernelStart [.alloc 1 0] = some w' ∧ w'.pagers = [] ∧ w'.active = none := by
  have hinit : HintOk Heap.init := fun p hp => absurd hp (Nat.not_lt_zero p)
  have hall : IsFirstFit (occupied Heap.init) heapPageSize 0 := by
    refine ⟨fun i hi => ?_, fun c hc => absurd hc (Nat.not_lt_zero c)⟩
    rw [Nat.zero_add, occupied_of_lt hi]
    rfl
  have hfirst := alloc_eq_some hinit (by decide) hall
  let full := Heap.init.take 0 heapPageSize
  have hfull : full.alloc 1 = none := by
    refine (alloc_eq_none_iff full 1).mpr ?_
    rintro ⟨b, hle, hlt, -⟩
    have hhint : full.firstPotentialPage = 0 + heapPageSize := rfl
    omega
  refine ⟨⟨full, [7], 7⟩, ⟨full, [], 7⟩, ?_, rfl, rfl, ?_, rfl, rfl⟩
  · rw [World.calls_cons]
    unfold World.call World.liballocAlloc
    dsimp only
    rw [hfirst]
    rfl
  · rw [World.calls_cons]
    unfold World.call World.liballocAlloc
    dsimp only
    rw [hfull]
    rfl

end MierOS.Memory.BootHeap
