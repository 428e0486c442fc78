/-
  MierOS.Memory.Physical — the physical page allocator of
  `kernel/src/memory/physical.cpp`.

  The allocator keeps one status bit per 4 KiB page and a search HINT,
  `pmm_first_potential_page`.  `palloc(n)` probes `n` pages from the hint,
  restarts just past the first used one it meets, and bumps the hint only
  when the block it found happens to start there; `pfree` clears the bits and
  pulls the hint back.

  The status words are read as a bitmap over page numbers; addresses are byte
  addresses, as in the source.  The search loop has no exit of its own, so
  `palloc` takes the number of restarts it may make as fuel.

  The search is `Lib.FirstFit.scan` at the page granularity
  (`pallocScan_eq_scan`), and the invariant behind everything is `HintOk`: no
  page below the hint is free.
-/
import Mathlib.Algebra.Group.Nat.Defs
import MierOS.Lib.FirstFit
import MierOS.Lib.Run

namespace MierOS.Memory.Physical

open Lib
open Lib.FirstFit

/-! ## §1. The status bitmap. -/

/-- The allocator's globals: `status_pages` read as one bit per page number,
`pmm_first_potential_page` and `allocated_ppages`. -/
structure Pmm where
  used : Nat → Bool
  firstPotentialPage : Nat
  allocatedPpages : UInt64

/-- `set_page_status(address, status)`. -/
def setPageStatus (s : Pmm) (address : Nat) (status : Bool) : Pmm :=
  { s with used := fun p => if p = address >>> 12 then status else s.used p }

/-- `is_page_used(address)`. -/
def isPageUsed (s : Pmm) (address : Nat) : Bool := s.used (address >>> 12)

/-- `for(i = 0; i < page_count; ++i) set_page_status(addr + (i << 12), status)`. -/
def setPagesStatus (s : Pmm) (addr pageCount : Nat) (status : Bool) : Pmm :=
  (List.range pageCount).foldl (fun s i => setPageStatus s (addr + (i <<< 12)) status) s

/-! ## §2. `init_pmm`. -/

/-- The `type` of a bootloader memory map entry. -/
inductive MemmapType where
  | usable
  | reserved
  | acpiReclaimable
  | acpiNvs
  | badMem
  | bootloaderReclaimable
  | kernelAndModules
  | framebuffer
  | unknown (code : UInt32)
  deriving Repr, DecidableEq

/-- `stivale2_memmap_entry`. -/
structure MemmapEntry where
  base : UInt64
  length : UInt64
  type : MemmapType
  deriving Repr, DecidableEq

/-- One round of the loop that frees the usable regions. -/
def initEntry (s : Pmm) (e : MemmapEntry) : Pmm :=
  match e.type with
  | .usable =>
      -- pull the hint back, then clear the bit of every page of the region
      let s :=
        if s.firstPotentialPage > e.base.toNat
        then { s with firstPotentialPage := e.base.toNat } else s
      setPagesStatus s e.base.toNat ((e.length.toNat + 4095) / 4096) false
  | _ => s

/-- `init_pmm(memory_map)`: everything used and the hint at `~0`, then the
usable regions freed, then the first MiB taken back for the AP startup. -/
def initPmm (memoryMap : List MemmapEntry) : Pmm :=
  let s : Pmm := { used := fun _ => true, firstPotentialPage := 2 ^ 64 - 1, allocatedPpages := 0 }
  let s := memoryMap.foldl initEntry s
  setPagesStatus s 0 256 true

/-! ## §3. `palloc` and `pfree`. -/

/-- The search loop of `palloc` from `addr`. -/
def pallocScan (s : Pmm) (pageCount : Nat) : Nat → Nat → Option Nat
  | 0, _ => none
  | fuel + 1, addr =>
      match (List.range pageCount).find? (fun i => isPageUsed s (addr + (i <<< 12))) with
      | none => some addr
      | some i => pallocScan s pageCount fuel (addr + ((i + 1) <<< 12))

/-- What `palloc` does once the block at `addr` is found. -/
def pallocTake (s : Pmm) (pageCount addr : Nat) : Pmm :=
  { setPagesStatus s addr pageCount true with
    -- bump the hint past this allocation when it starts at the hint
    firstPotentialPage :=
      if addr = s.firstPotentialPage then s.firstPotentialPage + (pageCount <<< 12)
      else s.firstPotentialPage
    allocatedPpages := s.allocatedPpages + UInt64.ofNat pageCount }

/-- `palloc(page_count)`. -/
def palloc (fuel : Nat) (s : Pmm) (pageCount : Nat) : Option (Nat × Pmm) :=
  (pallocScan s pageCount fuel s.firstPotentialPage).map fun addr =>
    (addr, pallocTake s pageCount addr)

/-- `pfree(addr, page_count)`. -/
def pfree (s : Pmm) (addr pageCount : Nat) : Pmm :=
  let addr := (addr >>> 12) <<< 12
  let cleared := setPagesStatus s addr pageCount false
  { cleared with
    firstPotentialPage :=
      if addr < s.firstPotentialPage then addr else s.firstPotentialPage
    allocatedPpages := s.allocatedPpages - UInt64.ofNat pageCount }

/-! ## §4. What the bit loops do. -/

@[simp] theorem setPageStatus_used (s : Pmm) (address p : Nat) (status : Bool) :
    (setPageStatus s address status).used p
      = if p = address >>> 12 then status else s.used p := rfl

@[simp] theorem setPageStatus_firstPotentialPage (s : Pmm) (address : Nat) (status : Bool) :
    (setPageStatus s address status).firstPotentialPage = s.firstPotentialPage := rfl

theorem setPagesStatus_used (s : Pmm) (addr : Nat) (status : Bool) (n p : Nat) :
    (setPagesStatus s addr n status).used p
      = if addr >>> 12 ≤ p ∧ p < addr >>> 12 + n then status else s.used p := by
  induction n with
  | zero =>
      have hnone : ¬ (addr >>> 12 ≤ p ∧ p < addr >>> 12 + 0) := by omega
      rw [if_neg hnone]
      rfl
  | succ n ih =>
      unfold setPagesStatus at ih ⊢
      rw [List.range_succ, List.foldl_append, List.foldl_cons, List.foldl_nil]
      rw [setPageStatus_used]
      have hshift : (addr + (n <<< 12)) >>> 12 = addr >>> 12 + n := by
        simp only [Nat.shiftLeft_eq, Nat.shiftRight_eq_div_pow]; omega
      rw [hshift, ih]
      by_cases hp : p = addr >>> 12 + n
      · rw [if_pos hp, if_pos (by omega)]
      · rw [if_neg hp]
        by_cases hin : addr >>> 12 ≤ p ∧ p < addr >>> 12 + n
        · rw [if_pos hin, if_pos (by omega)]
        · rw [if_neg hin, if_neg (by omega)]

@[simp] theorem setPagesStatus_firstPotentialPage (s : Pmm) (addr n : Nat) (status : Bool) :
    (setPagesStatus s addr n status).firstPotentialPage = s.firstPotentialPage := by
  unfold setPagesStatus
  induction n with
  | zero => rfl
  | succ n ih => rw [List.range_succ, List.foldl_append]; exact ih

/-- **The byte-address search is the page search.** -/
theorem pallocScan_eq_scan (s : Pmm) (n : Nat) :
    ∀ fuel addr : Nat,
      pallocScan s n fuel addr
        = (scan s.used n fuel (addr / 4096)).map (fun a => 4096 * a + addr % 4096) := by
  intro fuel
  induction fuel with
  | zero => intro addr; rfl
  | succ fuel ih =>
      intro addr
      have hprobe : (fun i => isPageUsed s (addr + (i <<< 12)))
          = (fun i => s.used (addr / 4096 + i)) := by
        funext i
        unfold isPageUsed
        congr 1
        simp only [Nat.shiftLeft_eq, Nat.shiftRight_eq_div_pow]; omega
      unfold pallocScan scan firstUsed
      rw [hprobe]
      cases (List.range n).find? (fun i => s.used (addr / 4096 + i)) with
      | none => simp; omega
      | some i =>
          have hstep : addr + ((i + 1) <<< 12) = addr + 4096 * (i + 1) := by
            simp only [Nat.shiftLeft_eq]; omega
          simp only [hstep]
          rw [ih, show (addr + 4096 * (i + 1)) / 4096 = addr / 4096 + i + 1 by omega,
              show (addr + 4096 * (i + 1)) % 4096 = addr % 4096 by omega]

/-! ## §5. Runs. -/

/-- One call and, for `palloc`, its result. -/
inductive PmmEvent where
  | palloc (pageCount addr : Nat)
  | pfree (addr pageCount : Nat)
  deriving Repr, DecidableEq

/-- A call of the allocator: `palloc` of at least one page that returns, or
`pfree` (at a 64-bit address) of pages that are all used. -/
inductive PmmStep : Pmm → PmmEvent → Pmm → Prop
  | palloc {s s' : Pmm} {n addr fuel : Nat} :
      1 ≤ n → palloc fuel s n = some (addr, s') → PmmStep s (.palloc n addr) s'
  | pfree {s : Pmm} {addr k : Nat} : addr < 2 ^ 64 →
      (∀ i, i < k → isPageUsed s (addr + (i <<< 12)) = true) →
      PmmStep s (.pfree addr k) (pfree s addr k)

/-- Page `p` is one of the `n` pages from byte address `addr` on. -/
def InBlock (addr n p : Nat) : Prop := addr >>> 12 ≤ p ∧ p < addr >>> 12 + n

instance (addr n p : Nat) : Decidable (InBlock addr n p) :=
  inferInstanceAs (Decidable (_ ∧ _))

/-- The event frees page `p`. -/
def PmmEvent.Frees : PmmEvent → Nat → Prop
  | .palloc _ _, _ => False
  | .pfree addr k, p => InBlock addr k p

/-- The event is a `pfree` of pages of the block of `n` pages at `addr`. -/
def PmmEvent.FreesPartOf (addr n : Nat) : PmmEvent → Prop
  | .palloc _ _ => False
  | .pfree addr' k => ∀ p, InBlock addr' k p → InBlock addr n p

/-- **The invariant**: no page below the hint is free, and the hint is a page
address unless it still has its initial value `~0` and nothing at all is free. -/
structure HintOk (s : Pmm) : Prop where
  noneBelow : ∀ p, p * 4096 < s.firstPotentialPage → s.used p = true
  aligned : s.firstPotentialPage % 4096 = 0
    ∨ s.firstPotentialPage = 2 ^ 64 - 1 ∧ ∀ p, s.used p = true

/-- The bootloader hands over usable regions that start on a page. -/
def AlignedMap (memoryMap : List MemmapEntry) : Prop :=
  ∀ e ∈ memoryMap, e.type = .usable → e.base.toNat % 4096 = 0

/-! ## §6. The invariant holds in every reachable state. -/

/-- Marking more pages used keeps the hint honest. -/
theorem HintOk.setUsed {s : Pmm} (h : HintOk s) (addr n : Nat) :
    HintOk (setPagesStatus s addr n true) := by
  refine ⟨fun p hp => ?_, ?_⟩
  · rw [setPagesStatus_used]
    split
    · rfl
    · exact h.noneBelow p (by simpa using hp)
  · rw [setPagesStatus_firstPotentialPage]
    rcases h.aligned with hal | ⟨hmax, hall⟩
    · exact Or.inl hal
    · refine Or.inr ⟨hmax, fun p => ?_⟩
      rw [setPagesStatus_used, hall p]
      simp

/-- Freeing a block and pulling the hint down to it (if it was above) keeps
the hint honest, whatever else the allocator counts. -/
theorem HintOk.setFree {s s' : Pmm} (h : HintOk s) (addr n : Nat)
    (hal : addr % 4096 = 0) (hlt : addr < 2 ^ 64)
    (hused : s'.used = (setPagesStatus s addr n false).used)
    (hfirst : s'.firstPotentialPage
      = if addr < s.firstPotentialPage then addr else s.firstPotentialPage) :
    HintOk s' := by
  have hpage : addr >>> 12 = addr / 4096 := by rw [Nat.shiftRight_eq_div_pow]
  have hle : s'.firstPotentialPage ≤ addr ∧ s'.firstPotentialPage ≤ s.firstPotentialPage := by
    rw [hfirst]; split <;> omega
  refine ⟨fun p hp => ?_, Or.inl ?_⟩
  · -- a page below the new hint is below the freed block
    rw [hused, setPagesStatus_used, if_neg (by rw [hpage]; omega)]
    exact h.noneBelow p (by omega)
  · rw [hfirst]
    rcases h.aligned with hi | ⟨hi, _⟩ <;> split <;> omega

theorem hintOk_initEntry {s : Pmm} (h : HintOk s) {e : MemmapEntry}
    (hal : e.type = .usable → e.base.toNat % 4096 = 0) : HintOk (initEntry s e) := by
  unfold initEntry
  cases htype : e.type with
  | usable =>
      have hbase : e.base.toNat < 2 ^ 64 := e.base.toNat_lt
      refine h.setFree e.base.toNat ((e.length.toNat + 4095) / 4096) (hal htype) hbase ?_ ?_
      · -- moving the hint first does not touch the bitmap
        funext p
        simp only [setPagesStatus_used]
        by_cases hhint : s.firstPotentialPage > e.base.toNat
        · rw [if_pos hhint]
        · rw [if_neg hhint]
      · rw [setPagesStatus_firstPotentialPage]
        split <;> simp_all
  | _ => exact h

/-- **`init_pmm` establishes the invariant.** -/
theorem hintOk_initPmm {memoryMap : List MemmapEntry} (hal : AlignedMap memoryMap) :
    HintOk (initPmm memoryMap) := by
  unfold initPmm
  apply HintOk.setUsed
  -- over the regions still to free, from any state that already satisfies it
  have hfold : ∀ (l : List MemmapEntry) (s : Pmm), AlignedMap l → HintOk s →
      HintOk (l.foldl initEntry s) := by
    intro l
    induction l with
    | nil => intro s _ h; exact h
    | cons e l ih =>
        intro s hl h
        rw [List.foldl_cons]
        exact ih _ (fun e' he' => hl e' (List.mem_cons_of_mem _ he'))
          (hintOk_initEntry h (hl e List.mem_cons_self))
  exact hfold memoryMap _ hal ⟨fun _ _ => rfl, Or.inr ⟨rfl, fun _ => rfl⟩⟩

/-- **What a returning `palloc` did**, given an honest hint: it found the
first fit of ALL memory, marked exactly that block, and moved the hint only if
the block starts there. -/
theorem palloc_spec {s s' : Pmm} (h : HintOk s) {fuel n addr : Nat} (hn : 1 ≤ n)
    (hp : palloc fuel s n = some (addr, s')) :
    ∃ a, addr = 4096 * a ∧ IsFirstFit s.used n a ∧
      (∀ p, s'.used p = if InBlock addr n p then true else s.used p) ∧
      s'.firstPotentialPage
        = if addr = s.firstPotentialPage then addr + 4096 * n else s.firstPotentialPage := by
  unfold palloc at hp
  rw [pallocScan_eq_scan] at hp
  cases hscan : scan s.used n fuel (s.firstPotentialPage / 4096) with
  | none => rw [hscan] at hp; simp at hp
  | some a =>
      rw [hscan] at hp
      simp only [Option.map_some, Option.some.injEq, Prod.mk.injEq] at hp
      obtain ⟨haddr, hs'⟩ := hp
      obtain ⟨_, hfree, _⟩ := scan_sound hscan
      have hal : s.firstPotentialPage % 4096 = 0 := by
        rcases h.aligned with hal | ⟨_, hall⟩
        · exact hal
        · -- nothing is free, so the scan cannot have returned
          have h0 := hfree 0 (by omega)
          rw [hall] at h0
          exact absurd h0 (by simp)
      rw [hal, Nat.add_zero] at haddr hs'
      have hhint : ∀ p, p < s.firstPotentialPage / 4096 → s.used p = true :=
        fun p hp' => h.noneBelow p (by omega)
      refine ⟨a, haddr.symm, isFirstFit_of_scan hn hhint hscan, ?_, ?_⟩
      · intro p
        rw [← hs', ← haddr]
        exact setPagesStatus_used s (4096 * a) true n p
      · rw [← hs', ← haddr]
        show (if 4096 * a = s.firstPotentialPage then s.firstPotentialPage + (n <<< 12)
          else s.firstPotentialPage) = _
        rw [Nat.shiftLeft_eq]
        split <;> omega

/-- **`palloc` returns** whenever some run of `n` pages is free. -/
theorem palloc_returns {s : Pmm} (h : HintOk s) {n a : Nat} (hn : 1 ≤ n)
    (ha : IsFirstFit s.used n a) :
    ∀ fuel, a < fuel → palloc fuel s n = some (4096 * a, pallocTake s n (4096 * a)) := by
  have hal : s.firstPotentialPage % 4096 = 0 := by
    rcases h.aligned with hal | ⟨_, hall⟩
    · exact hal
    · have h0 := ha.1 0 (by omega)
      rw [hall] at h0
      exact absurd h0 (by simp)
  have hhint : ∀ p, p < s.firstPotentialPage / 4096 → s.used p = true :=
    fun p hp' => h.noneBelow p (by omega)
  intro fuel hfuel
  unfold palloc
  rw [pallocScan_eq_scan, scan_of_hint hn hhint ha hfuel, hal]
  rfl

theorem hintOk_palloc {s s' : Pmm} (h : HintOk s) {fuel n addr : Nat} (hn : 1 ≤ n)
    (hp : palloc fuel s n = some (addr, s')) : HintOk s' := by
  obtain ⟨a, haddr, hfit, hused, hfirst⟩ := palloc_spec h hn hp
  have hpage : addr >>> 12 = a := by rw [Nat.shiftRight_eq_div_pow]; omega
  refine ⟨fun p hlt => ?_, Or.inl ?_⟩
  · rw [hused p]
    by_cases hin : InBlock addr n p
    · rw [if_pos hin]
    · rw [if_neg hin]
      unfold InBlock at hin
      rw [hpage] at hin
      apply h.noneBelow
      -- outside the block, below the new hint is below the old one
      rw [hfirst] at hlt
      split at hlt <;> omega
  · rw [hfirst]
    rcases h.aligned with hal | ⟨_, hall⟩
    · split <;> omega
    · have h0 := hfit.1 0 (by omega)
      rw [hall] at h0
      exact absurd h0 (by simp)

theorem hintOk_pfree {s : Pmm} (h : HintOk s) {addr k : Nat} (hlt : addr < 2 ^ 64) :
    HintOk (pfree s addr k) := by
  have hround : (addr >>> 12) <<< 12 = addr / 4096 * 4096 := by
    rw [Nat.shiftLeft_eq, Nat.shiftRight_eq_div_pow]
  refine h.setFree ((addr >>> 12) <<< 12) k ?_ ?_ rfl rfl
  · rw [hround]; omega
  · rw [hround]; omega

theorem hintOk_step {s s' : Pmm} {e : PmmEvent} (h : HintOk s) (hst : PmmStep s e s') :
    HintOk s' := by
  cases hst with
  | palloc hn hp => exact hintOk_palloc h hn hp
  | pfree hlt _ => exact hintOk_pfree h hlt

/-- **The hint is honest in every reachable state.** -/
theorem hintOk_run {memoryMap : List MemmapEntry} (hal : AlignedMap memoryMap)
    {hist : List PmmEvent} {s : Pmm} (hrun : Run PmmStep (initPmm memoryMap) hist s) :
    HintOk s :=
  hrun.invariant HintOk (hintOk_initPmm hal) (fun _ _ _ h hst => hintOk_step h hst)

/-! ## §7. Live blocks, and giving a block back. -/

theorem pfree_used (s : Pmm) (addr k p : Nat) :
    (pfree s addr k).used p = if InBlock addr k p then false else s.used p := by
  unfold pfree
  rw [setPagesStatus_used]
  have hround : ((addr >>> 12) <<< 12) >>> 12 = addr >>> 12 := by
    simp only [Nat.shiftLeft_eq, Nat.shiftRight_eq_div_pow]; omega
  rw [hround]
  rfl

/-- A step changes the bit of a page it does not free only from free to used. -/
theorem used_step {s s' : Pmm} {e : PmmEvent} {p : Nat} (h : HintOk s)
    (hst : PmmStep s e s') (hp : s.used p = true) (hfree : ¬ e.Frees p) :
    s'.used p = true := by
  cases hst with
  | palloc hn hpal =>
      obtain ⟨_, _, _, hused, _⟩ := palloc_spec h hn hpal
      rw [hused p, hp]
      simp
  | @pfree addr k _ _ =>
      have hno : ¬ InBlock addr k p := hfree
      rw [pfree_used, if_neg hno]
      exact hp

/-- A page stays used over a run that never frees it. -/
theorem used_run {s s' : Pmm} {hist : List PmmEvent} {p : Nat} (h : HintOk s)
    (hrun : Run PmmStep s hist s') (hp : s.used p = true) :
    (∀ e ∈ hist, ¬ e.Frees p) → HintOk s' ∧ s'.used p = true := by
  induction hrun with
  | init => exact fun _ => ⟨h, hp⟩
  | step _ hst ih =>
      intro hfree
      obtain ⟨hok, hused⟩ := ih fun e he => hfree e (List.mem_cons_of_mem _ he)
      exact ⟨hintOk_step hok hst, used_step hok hst hused (hfree _ List.mem_cons_self)⟩

/-- **A run of frees inside one block**: it clears what it covers, keeps the
rest, and keeps the hint honest. -/
theorem run_of_frees {s s' : Pmm} {hist : List PmmEvent} {addr n : Nat} (h : HintOk s)
    (hrun : Run PmmStep s hist s') :
    (∀ e ∈ hist, e.FreesPartOf addr n) →
      HintOk s' ∧ ∀ p, ((∃ e ∈ hist, e.Frees p) → s'.used p = false)
        ∧ ((∀ e ∈ hist, ¬ e.Frees p) → s'.used p = s.used p) := by
  induction hrun with
  | init => exact fun _ => ⟨h, fun p => ⟨fun ⟨e, he, _⟩ => absurd he (by simp), fun _ => rfl⟩⟩
  | @step hist m s' e _ hst ih =>
      intro hpart
      obtain ⟨hok, hbits⟩ := ih fun e' he' => hpart e' (List.mem_cons_of_mem _ he')
      refine ⟨hintOk_step hok hst, fun p => ?_⟩
      cases hst with
      | palloc _ _ => exact absurd (hpart _ List.mem_cons_self) (by simp [PmmEvent.FreesPartOf])
      | @pfree addr' k _ _ =>
          rw [pfree_used]
          by_cases hin : InBlock addr' k p
          · rw [if_pos hin]
            exact ⟨fun _ => rfl, fun hno => absurd hin (hno _ List.mem_cons_self)⟩
          · rw [if_neg hin]
            refine ⟨fun ⟨e', he', hfr⟩ => ?_, fun hno => ?_⟩
            · rcases List.mem_cons.mp he' with rfl | he'
              · exact absurd hfr hin
              · exact (hbits p).1 ⟨e', he', hfr⟩
            · exact (hbits p).2 fun e' he' => hno e' (List.mem_cons_of_mem _ he')

/-- Two blocks handed out at different moments share a page only if it was
freed in between. -/
theorem live_blocks_disjoint {memoryMap : List MemmapEntry} (hal : AlignedMap memoryMap)
    {recent mid older : List PmmEvent} {s : Pmm} {n a m b p : Nat}
    (hrun : Run PmmStep (initPmm memoryMap)
      (recent ++ .palloc m b :: (mid ++ .palloc n a :: older)) s)
    (hpa : InBlock a n p) (hpb : InBlock b m p) : ∃ e ∈ mid, e.Frees p := by
  by_contra hno
  push Not at hno
  obtain ⟨s₄, hrun₄, _⟩ := hrun.split
  cases hrun₄ with
  | @step _ s₃ _ _ hrun₃ hst₃ =>
      obtain ⟨s₂, hrun₂, hmid⟩ := hrun₃.split
      cases hrun₂ with
      | @step _ s₁ _ _ hrun₁ hst₁ =>
          have hok₁ := hintOk_run hal hrun₁
          -- the first block is used right after its allocation, and still is
          have hok₂ := hintOk_step hok₁ hst₁
          have hused₂ : s₂.used p = true := by
            cases hst₁ with
            | palloc hn hpal =>
                obtain ⟨_, _, _, hused, _⟩ := palloc_spec hok₁ hn hpal
                rw [hused p, if_pos hpa]
          obtain ⟨hok₃, hused₃⟩ := used_run hok₂ hmid hused₂ hno
          -- but the second allocation found it free
          cases hst₃ with
          | palloc hn hpal =>
              obtain ⟨c, hc, hfit, _, _⟩ := palloc_spec hok₃ hn hpal
              have hpage : b >>> 12 = c := by rw [Nat.shiftRight_eq_div_pow]; omega
              unfold InBlock at hpb
              exact not_freeRun_of_used hused₃ (by omega) (by omega) hfit.1

/-- Once every page of a block is free again, the bitmap is the one before the
block was allocated. -/
theorem used_eq_of_freed {s s₁ s₂ : Pmm} {frees : List PmmEvent} {n addr : Nat} (h : HintOk s)
    (hst : PmmStep s (.palloc n addr) s₁) (hrun : Run PmmStep s₁ frees s₂)
    (hpart : ∀ e ∈ frees, e.FreesPartOf addr n)
    (hcover : ∀ p, InBlock addr n p → ∃ e ∈ frees, e.Frees p) :
    HintOk s₂ ∧ s₂.used = s.used := by
  have hok₁ := hintOk_step h hst
  obtain ⟨hok₂, hbits⟩ := run_of_frees hok₁ hrun hpart
  refine ⟨hok₂, funext fun p => ?_⟩
  cases hst with
  | palloc hn hpal =>
      obtain ⟨a, ha, hfit, hused, _⟩ := palloc_spec h hn hpal
      have hpage : addr >>> 12 = a := by rw [Nat.shiftRight_eq_div_pow]; omega
      by_cases hin : InBlock addr n p
      · rw [(hbits p).1 (hcover p hin)]
        unfold InBlock at hin
        have hfree := hfit.1 (p - a) (by omega)
        rw [show a + (p - a) = p by omega] at hfree
        exact hfree.symm
      · have hno : ∀ e ∈ frees, ¬ e.Frees p := by
          intro e he hfr
          have hpt := hpart e he
          cases e with
          | palloc _ _ => exact hfr
          | pfree addr' k => exact hin (hpt p hfr)
        rw [(hbits p).2 hno, hused p, if_neg hin]

/-! ## §8. The allocator is first fit over all memory. -/

/-- **`palloc` REFINES FIRST FIT.**  In every state reachable from `init_pmm`
by `palloc` and `pfree` calls:

  * no page below the hint is free;
  * whenever `n ≥ 1` consecutive pages are free, `palloc(n)` returns the lowest
    such block of all memory, marks exactly its pages, and changes no other bit;
  * two blocks handed out overlap only in pages freed in between;
  * freeing all pages of a fresh block, in any order and granularity, restores
    the bitmap, and the next `palloc` of that size returns the same address. -/
theorem palloc_refines_firstFit (memoryMap : List MemmapEntry) (hal : AlignedMap memoryMap)
    (hist : List PmmEvent) (s : Pmm) (hrun : Run PmmStep (initPmm memoryMap) hist s) :
    (∀ p, p * 4096 < s.firstPotentialPage → s.used p = true)
    ∧ (∀ n b, 1 ≤ n → FreeRun s.used n b →
        ∃ a s', IsFirstFit s.used n a
          ∧ (∃ rounds, ∀ fuel, rounds ≤ fuel → palloc fuel s n = some (4096 * a, s'))
          ∧ ∀ p, s'.used p = if a ≤ p ∧ p < a + n then true else s.used p)
    ∧ (∀ recent mid older n a m b,
        hist = recent ++ .palloc m b :: (mid ++ .palloc n a :: older) →
        ∀ p, InBlock a n p → InBlock b m p → ∃ e ∈ mid, e.Frees p)
    ∧ (∀ n addr s₁ frees s₂, PmmStep s (.palloc n addr) s₁ → Run PmmStep s₁ frees s₂ →
        (∀ e ∈ frees, e.FreesPartOf addr n) →
        (∀ p, InBlock addr n p → ∃ e ∈ frees, e.Frees p) →
        s₂.used = s.used
          ∧ ∃ rounds s₃, ∀ fuel, rounds ≤ fuel → palloc fuel s₂ n = some (addr, s₃)) := by
  have hok := hintOk_run hal hrun
  refine ⟨hok.noneBelow, ?_, ?_, ?_⟩
  · intro n b hn hb
    obtain ⟨a, ha⟩ := exists_isFirstFit hb
    have hret := palloc_returns hok hn ha
    refine ⟨a, _, ha, ⟨a + 1, fun fuel hfuel => hret fuel hfuel⟩, fun p => ?_⟩
    obtain ⟨_, _, _, hused, _⟩ := palloc_spec hok hn (hret (a + 1) (by omega))
    have hpage : (4096 * a) >>> 12 = a := by rw [Nat.shiftRight_eq_div_pow]; omega
    rw [hused p]
    unfold InBlock
    simp only [hpage]
  · intro recent mid older n a m b hhist p hpa hpb
    subst hhist
    exact live_blocks_disjoint hal hrun hpa hpb
  · intro n addr s₁ frees s₂ hst hfrees hpart hcover
    obtain ⟨hok₂, hused⟩ := used_eq_of_freed hok hst hfrees hpart hcover
    refine ⟨hused, ?_⟩
    cases hst with
    | palloc hn hpal =>
        obtain ⟨a, ha, hfit, _, _⟩ := palloc_spec hok hn hpal
        rw [← hused] at hfit
        have hret := palloc_returns hok₂ hn hfit
        rw [ha]
        exact ⟨a + 1, _, fun fuel hfuel => hret fuel hfuel⟩

set_option maxRecDepth 4000 in
/-- One usable region of 16 pages at 2 MiB, after `palloc(2)` has taken its
first two pages. -/
theorem palloc_refines_firstFit_region :
    let memoryMap : List MemmapEntry := [⟨0x200000, 0x10000, .usable⟩]
    let s := pallocTake (initPmm memoryMap) 2 0x200000
    AlignedMap memoryMap
      ∧ Run PmmStep (initPmm memoryMap) [.palloc 2 0x200000] s
      ∧ ∃ a s', IsFirstFit s.used 3 a
          ∧ (∃ rounds, ∀ fuel, rounds ≤ fuel → palloc fuel s 3 = some (4096 * a, s')) := by
  have hal : AlignedMap [⟨0x200000, 0x10000, .usable⟩] := by
    intro e he _
    rw [List.mem_singleton.mp he]
    decide
  have hrun : Run PmmStep (initPmm [⟨0x200000, 0x10000, .usable⟩]) [.palloc 2 0x200000]
      (pallocTake (initPmm [⟨0x200000, 0x10000, .usable⟩]) 2 0x200000) :=
    Run.step Run.init (PmmStep.palloc (by decide)
      (rfl : palloc 1 (initPmm [⟨0x200000, 0x10000, .usable⟩]) 2 = some (0x200000, _)))
  obtain ⟨_, hfit, _, _⟩ := palloc_refines_firstFit _ hal _ _ hrun
  have hfree : FreeRun
      (pallocTake (initPmm [⟨0x200000, 0x10000, .usable⟩]) 2 0x200000).used 3 0x202 := by
    intro i hi
    have hcase : i = 0 ∨ i = 1 ∨ i = 2 := by omega
    rcases hcase with rfl | rfl | rfl <;>
      simp [pallocTake, initPmm, initEntry, setPagesStatus_used]
  obtain ⟨a, s', ha, hret, _⟩ := hfit 3 0x202 (by decide) hfree
  exact ⟨hal, hrun, a, s', ha, hret⟩

end MierOS.Memory.Physical
