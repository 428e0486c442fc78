/-
  MierOS.Tasking.FreeAddr
  **ROOM IN A USER ADDRESS SPACE**: `Process::get_free_addr` of `process.cpp`.

  The search is `Lib.WrapSearch` over the pages of the address space, with
  `KERNEL_START` as its limit.  The limit is compared with the BEGINNING of a
  range only, so the range that is found can reach into the kernel.

  Main results: `getFreeAddr_eq`, `get_free_addr_iff`.
-/
import MierOS.Lib.WrapSearch
import MierOS.Memory.Virtual

namespace MierOS.Tasking

open Lib
open Lib.FirstFit (firstUsed FreeRun)
open Memory.Virtual (kernelStart)

/-! ## §1. The code. -/

section FreeAddr

variable {E : Type} (memorymap : Nat → Option E)

/-- The inner loop: the first `i` with `f_memorymap.at(addr + (i << 12))`. -/
def firstMapped (length addr : Nat) : Option Nat :=
  (List.range length).find? fun i => (memorymap ((addr + i <<< 12) % 2 ^ 64)).isSome

/-- One round of the outer loop. -/
def searchRound (length addr : Nat) : Nat ⊕ Nat :=
  if addr < kernelStart then
    match firstMapped memorymap length addr with
    | some i => .inl ((addr + 4096 * (i + 1)) % 2 ^ 64)
    | none => .inr addr
  else .inr 0

/-- Where the search begins. -/
def searchStart (firstFree hint : Nat) : Nat := if hint ≠ 0 then hint else firstFree

/-- `Process::get_free_addr(hint, length)`; `none` when `fuel` rounds are not enough. -/
def getFreeAddr (firstFree hint length fuel : Nat) : Option Nat :=
  Loop.run (searchRound memorymap length) fuel (searchStart firstFree hint)

/-! ## §2. What the answer should be. -/

/-- None of the `n` pages from `a` on is in the map. -/
def AllFree (n a : Nat) : Prop := ∀ i, i < n → memorymap ((a + 4096 * i) % 2 ^ 64) = none

/-- `n` free pages that end at or below `KERNEL_START`. -/
def RangeAt (n a : Nat) : Prop := AllFree memorymap n a ∧ a + 4096 * n ≤ kernelStart

/-- **The answer**: `0` when there is no such range at or above the start, and else the
address of one. -/
def Serves (start n r : Nat) : Prop :=
  (r = 0 ∧ ∀ a, start ≤ a → a % 4096 = 0 → ¬ RangeAt memorymap n a)
    ∨ (r ≠ 0 ∧ start ≤ r ∧ r % 4096 = 0 ∧ RangeAt memorymap n r)

/-- The search is stopped everywhere: from every page of the user half on, one of the
`n` pages is mapped, and it is not the last of the address space. -/
def Exhausted (start n : Nat) : Prop :=
  ∀ a, start ≤ a → a % 4096 = 0 → a < kernelStart →
    ∃ i, i < n ∧ a + 4096 * (i + 1) < 2 ^ 64 ∧ memorymap (a + 4096 * i) ≠ none

/-- The search comes to a page from which the last one of the address space is the first
mapped one, and wraps to address 0. -/
def WrapsToZero (start n : Nat) : Prop :=
  memorymap (2 ^ 64 - 4096) ≠ none ∧ ∃ a, start ≤ a ∧ a % 4096 = 0 ∧ a < kernelStart
    ∧ (a = start ∨ memorymap (a - 4096) ≠ none)
    ∧ (∀ x, a ≤ x → x % 4096 = 0 → x < 2 ^ 64 - 4096 → memorymap x = none)
    ∧ 2 ^ 64 ≤ a + 4096 * n

/-- Where the search serves its caller. -/
def Findable (start n : Nat) : Prop :=
  ((∃ a, start ≤ a ∧ a % 4096 = 0 ∧ RangeAt memorymap n a)
      ∧ ¬ (start = 0 ∧ RangeAt memorymap n 0))
    ∨ Exhausted memorymap start n
    ∨ ((∀ a, start ≤ a → a % 4096 = 0 → ¬ RangeAt memorymap n a) ∧ AllFree memorymap n 0
        ∧ (start = 0 ∨ WrapsToZero memorymap start n))

/-! ## §3. Pages. -/

/-- Page `p` of the address space, which has 2^52 of them, is in the map. -/
def pageMapped (p : Nat) : Bool := (memorymap (4096 * p % 2 ^ 64)).isSome

/-- The page of `KERNEL_START`. -/
def kernelPage : Nat := kernelStart / 4096

theorem kernelStart_eq : kernelStart = 4096 * kernelPage := by decide

theorem kernelPage_le : kernelPage ≤ 2 ^ 52 := by decide

variable {memorymap}

theorem pageMapped_add (p : Nat) : pageMapped memorymap (p + 2 ^ 52) = pageMapped memorymap p := by
  unfold pageMapped
  rw [show 4096 * (p + 2 ^ 52) % 2 ^ 64 = 4096 * p % 2 ^ 64 by omega]

theorem pageMapped_iff {p : Nat} (h : 4096 * p < 2 ^ 64) :
    pageMapped memorymap p = true ↔ memorymap (4096 * p) ≠ none := by
  unfold pageMapped
  rw [Nat.mod_eq_of_lt h, Option.isSome_iff_ne_none]

theorem not_pageMapped_iff {p : Nat} (h : 4096 * p < 2 ^ 64) :
    pageMapped memorymap p = false ↔ memorymap (4096 * p) = none := by
  rw [← Bool.not_eq_true, pageMapped_iff h, not_not]

theorem allFree_page (memorymap : Nat → Option E) (n p : Nat) :
    AllFree memorymap n (4096 * p) ↔ FreeRun (pageMapped memorymap) n p := by
  unfold AllFree FreeRun pageMapped
  refine forall_congr' fun i => imp_congr_right fun _ => ?_
  rw [← Nat.mul_add, Option.isSome_eq_false_iff, Option.isNone_iff_eq_none]

theorem rangeAt_page (memorymap : Nat → Option E) (n p : Nat) :
    RangeAt memorymap n (4096 * p) ↔ WrapSearch.Good (pageMapped memorymap) n kernelPage p := by
  unfold RangeAt WrapSearch.Good
  rw [allFree_page, kernelStart_eq]
  refine and_congr_right fun _ => ?_
  omega

/-- Addresses of pages are multiples of 4096. -/
theorem forall_page {P : Nat → Prop} {s : Nat} :
    (∀ a, 4096 * s ≤ a → a % 4096 = 0 → P a) ↔ ∀ p, s ≤ p → P (4096 * p) := by
  constructor
  · intro h p hp
    exact h (4096 * p) (by omega) (by omega)
  · intro h a ha hpage
    have hp := h (a / 4096) (by omega)
    rwa [show 4096 * (a / 4096) = a by omega] at hp

theorem exists_page {P : Nat → Prop} {s : Nat} :
    (∃ a, 4096 * s ≤ a ∧ a % 4096 = 0 ∧ P a) ↔ ∃ p, s ≤ p ∧ P (4096 * p) := by
  constructor
  · intro ⟨a, ha, hpage, hP⟩
    refine ⟨a / 4096, by omega, ?_⟩
    rwa [show 4096 * (a / 4096) = a by omega]
  · intro ⟨p, hp, hP⟩
    exact ⟨4096 * p, by omega, by omega, hP⟩

/-- A round by addresses is a round by pages. -/
theorem searchRound_page (n p : Nat) :
    searchRound memorymap n (4096 * p)
      = (WrapSearch.round (pageMapped memorymap) n (2 ^ 52) kernelPage p).map
          (4096 * ·) (4096 * ·) := by
  have hprobe : firstMapped memorymap n (4096 * p) = firstUsed (pageMapped memorymap) n p := by
    unfold firstMapped firstUsed pageMapped
    congr 1
    funext i
    rw [Nat.shiftLeft_eq, Nat.mul_comm i, show 2 ^ 12 = 4096 from rfl, ← Nat.mul_add]
  have hlimit : 4096 * p < kernelStart ↔ p < kernelPage := by
    rw [kernelStart_eq]
    omega
  unfold searchRound WrapSearch.round
  rw [hprobe]
  by_cases hp : p < kernelPage
  · rw [if_pos (hlimit.mpr hp), if_pos hp]
    cases firstUsed (pageMapped memorymap) n p with
    | none => rfl
    | some i =>
        show Sum.inl ((4096 * p + 4096 * (i + 1)) % 2 ^ 64)
          = Sum.inl (4096 * ((p + i + 1) % 2 ^ 52))
        refine congrArg Sum.inl ?_
        omega
  · rw [if_neg (fun h => hp (hlimit.mp h)), if_neg hp]
    rfl

/-- **The search by addresses is the search by pages.** -/
theorem getFreeAddr_eq (firstFree hint n fuel : Nat) {s : Nat}
    (hs : searchStart firstFree hint = 4096 * s) :
    getFreeAddr memorymap firstFree hint n fuel
      = (Loop.run (WrapSearch.round (pageMapped memorymap) n (2 ^ 52) kernelPage) fuel s).map
          (4096 * ·) := by
  unfold getFreeAddr
  rw [hs]
  exact Loop.run_map (4096 * ·) (4096 * ·) (searchRound_page n) fuel s

theorem serves_page (n s r : Nat) :
    Serves memorymap (4096 * s) n (4096 * r)
      ↔ WrapSearch.Serves (pageMapped memorymap) n kernelPage s r := by
  unfold Serves WrapSearch.Serves
  rw [forall_page]
  simp only [rangeAt_page]
  refine or_congr (and_congr_left fun _ => by omega) ?_
  constructor
  · intro ⟨hne, hle, _, hgood⟩
    exact ⟨by omega, by omega, hgood⟩
  · intro ⟨hne, hle, hgood⟩
    exact ⟨by omega, by omega, by omega, hgood⟩

theorem exhausted_page (n s : Nat) :
    Exhausted memorymap (4096 * s) n
      ↔ WrapSearch.Exhausted (pageMapped memorymap) n (2 ^ 52) kernelPage s := by
  unfold Exhausted WrapSearch.Exhausted
  rw [forall_page]
  refine forall_congr' fun p => imp_congr_right fun _ => ?_
  refine imp_congr (by rw [kernelStart_eq]; omega) ?_
  refine exists_congr fun i => and_congr_right fun _ => ?_
  constructor
  · intro ⟨hend, hne⟩
    rw [← Nat.mul_add] at hne
    exact ⟨by omega, (pageMapped_iff (by omega)).mpr hne⟩
  · intro ⟨hend, hused⟩
    rw [pageMapped_iff (by omega), Nat.mul_add] at hused
    exact ⟨by omega, hused⟩

theorem wraps_page (n s : Nat) :
    WrapsToZero memorymap (4096 * s) n
      ↔ WrapSearch.Wraps (pageMapped memorymap) n (2 ^ 52) kernelPage s := by
  have hlast : pageMapped memorymap (2 ^ 52 - 1) = true ↔ memorymap (2 ^ 64 - 4096) ≠ none :=
    pageMapped_iff (by decide)
  have hlimit := kernelPage_le
  unfold WrapsToZero WrapSearch.Wraps
  rw [hlast, exists_page]
  refine and_congr_right fun _ => exists_congr fun p => and_congr_right fun hsp => ?_
  have hbelow : 4096 * p < kernelStart ↔ p < kernelPage := by
    rw [kernelStart_eq]
    omega
  rw [hbelow, forall_page]
  refine and_congr_right fun hp => and_congr ?_ (and_congr ?_ (by omega))
  · -- the page in front of `p`
    by_cases heq : p = s
    · simp [heq]
    · have hprev : 4096 * p - 4096 = 4096 * (p - 1) := by omega
      rw [hprev, pageMapped_iff (by omega)]
      refine or_congr_left ?_
      omega
  · refine forall_congr' fun x => imp_congr_right fun _ => ?_
    constructor
    · intro h hx
      exact (not_pageMapped_iff (by omega)).mpr (h (by omega))
    · intro h hx
      exact (not_pageMapped_iff (by omega)).mp (h (by omega))

theorem findable_page (n s : Nat) :
    Findable memorymap (4096 * s) n
      ↔ WrapSearch.Findable (pageMapped memorymap) n (2 ^ 52) kernelPage s := by
  have hzero : 4096 * s = 0 ↔ s = 0 := by omega
  have hfirst := rangeAt_page memorymap n 0
  have hfree := allFree_page memorymap n 0
  rw [Nat.mul_zero] at hfirst hfree
  unfold Findable WrapSearch.Findable
  rw [exists_page, forall_page, exhausted_page, wraps_page, hfirst, hfree, hzero]
  simp only [rangeAt_page]

end FreeAddr

/-! ## §4. The search. -/

/-- **`get_free_addr` serves its caller** in these cases and no others. -/
theorem get_free_addr_iff {E : Type} (memorymap : Nat → Option E) (firstFree hint n : Nat)
    (hn : 1 ≤ n) (haligned : searchStart firstFree hint % 4096 = 0)
    (hbelow : searchStart firstFree hint < kernelStart) :
    (∃ fuel r, getFreeAddr memorymap firstFree hint n fuel = some r
        ∧ Serves memorymap (searchStart firstFree hint) n r)
      ↔ Findable memorymap (searchStart firstFree hint) n := by
  obtain ⟨s, hs⟩ : ∃ s, searchStart firstFree hint = 4096 * s :=
    ⟨searchStart firstFree hint / 4096, by omega⟩
  have hslt : s < kernelPage := by
    rw [hs, kernelStart_eq] at hbelow
    omega
  rw [hs, findable_page, ← WrapSearch.serves_iff hn pageMapped_add hslt kernelPage_le]
  constructor
  · intro ⟨fuel, a, hreturns, hserves⟩
    rw [getFreeAddr_eq firstFree hint n fuel hs] at hreturns
    obtain ⟨r, hr, rfl⟩ := Option.map_eq_some_iff.mp hreturns
    exact ⟨r, ⟨fuel, hr⟩, (serves_page n s r).mp hserves⟩
  · intro ⟨r, ⟨fuel, hr⟩, hserves⟩
    refine ⟨fuel, 4096 * r, ?_, (serves_page n s r).mpr hserves⟩
    rw [getFreeAddr_eq firstFree hint n fuel hs, hr]
    rfl

/-- Two mapped pages in the way of a search from `MMAP_MIN_ADDR` on. -/
def pagesInTheWay (a : Nat) : Option Unit :=
  if a = 0x104000 ∨ a = 0x10A000 then some () else none

/-- Sixteen pages are found behind both of them. -/
theorem get_free_addr_iff_pages :
    getFreeAddr pagesInTheWay 0x100000 0 16 3 = some 0x10B000
      ∧ Findable pagesInTheWay 0x100000 16 := by
  have hfound : getFreeAddr pagesInTheWay 0x100000 0 16 3 = some 0x10B000 := by decide
  have hfree : AllFree pagesInTheWay 16 0x10B000 :=
    (by decide : ∀ i < 16, pagesInTheWay ((0x10B000 + 4096 * i) % 2 ^ 64) = none)
  exact ⟨hfound, (get_free_addr_iff pagesInTheWay 0x100000 0 16 (by decide) (by decide)
    (by decide)).mp ⟨3, 0x10B000, hfound, Or.inr ⟨by decide, by decide, by decide, hfree,
      by decide⟩⟩⟩

/-- Two pages from the last one below `KERNEL_START` on: the second is a kernel page. -/
theorem get_free_addr_crosses :
    ¬ ∃ fuel r,
        getFreeAddr (fun _ => (none : Option Unit)) 0x100000 (kernelStart - 4096) 2 fuel = some r
          ∧ Serves (fun _ => (none : Option Unit)) (kernelStart - 4096) 2 r := by
  intro ⟨fuel, r, hreturns, hserves⟩
  have hround : searchRound (fun _ => (none : Option Unit)) 2 (kernelStart - 4096)
      = .inr (kernelStart - 4096) := by decide
  have hr : r = kernelStart - 4096 :=
    Loop.Returns.unique ⟨fuel, hreturns⟩ (Loop.Returns.inr hround)
  rcases hserves with ⟨hzero, _⟩ | ⟨_, _, _, _, hend⟩
  · rw [hr] at hzero
    exact absurd hzero (by decide)
  · rw [hr] at hend
    exact absurd hend (by decide)

end MierOS.Tasking
