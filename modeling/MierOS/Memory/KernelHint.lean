/-
  MierOS.Memory.KernelHint
  **THE PROMISE OF `first_potential_kernel_page`**: every kernel page below it is
  present.

  Main results: `taken_hintOk_iff`, `unmapped_hintOk_iff`,
  `kernel_hint_invariant`, `unmapped_page_lost`.
-/
import MierOS.Memory.KernelSpace

namespace MierOS.Memory.Virtual

open Lib Lib.FirstFit

namespace Paging

/-! ## §1. One call and the promise of the hint. -/

section Promise

variable {s s' : Paging}

/-- The `n` pages at the lowest free page above the hint are free: the search meets
no gap it has to pass over. -/
def FitsAtHint (s : Paging) (n : Nat) : Prop :=
  ∃ a, FitsAbove s n a ∧ ∀ k, hintPage s ≤ k → k < a → kernelUsed s k = true

theorem Leaves.hintOk_iff {used : Nat → Bool} {a : Nat} (h : Leaves s s' used (kernelAddr a))
    (ha : kernelPage + a ≤ windowPage) : HintOk s' ↔ ∀ k, k < a → used k = true := by
  have hpage := hintPage_of_eq h.hint
  constructor
  · intro hok k hk
    rw [← h.used]
    exact hok.present k (by rw [hpage]; exact hk)
  · intro hall
    refine ⟨?_, by rw [hpage]; exact ha, ?_⟩
    · rw [h.hint]
      exact Nat.le_add_right _ _
    · intro k hk
      rw [hpage] at hk
      rw [h.used]
      exact hall k hk

/-- **Taking the first fit keeps the promise exactly when it starts at the first
free page.** -/
theorem taken_hintOk_iff (hok : HintOk s) {n a : Nat} (hfits : FitsAbove s n a)
    (hmin : ∀ c, hintPage s ≤ c → c < a → ¬ FreeRun (kernelUsed s) n c)
    (hleft : Leaves s s' (fun k => kernelUsed s k || inPages (kernelPage + a) n k)
      (kernelAddr a)) : HintOk s' ↔ FitsAtHint s n := by
  have hwin := hfits.2.1
  rw [hleft.hintOk_iff (by omega)]
  constructor
  · intro hall
    refine ⟨a, hfits, fun k _ hk => ?_⟩
    have hused := hall k hk
    have hout : inPages (kernelPage + a) n k = false := decide_eq_false (by omega)
    rwa [hout, Bool.or_false] at hused
  · intro ⟨a', hfits', hfull⟩ k hk
    have haa' : a ≤ a' := by
      by_contra hlt
      exact hmin a' hfits'.1 (by omega) hfits'.2.2
    have hused : kernelUsed s k = true := by
      by_cases hbelow : k < hintPage s
      · exact hok.present k hbelow
      · exact hfull k (by omega) (by omega)
    rw [hused, Bool.true_or]

/-- **Mapping keeps the promise.** -/
theorem mapped_hintOk (hg : Good s) (hok : HintOk s) {v n : Nat}
    (hleft : Leaves s s' (fun k => kernelUsed s k || inPages v n k) s.firstPotentialKernelPage) :
    HintOk s' := by
  rw [hg.hint_eq hok.above] at hleft
  refine (hleft.hintOk_iff hok.below).mpr fun k hk => ?_
  rw [hok.present k hk, Bool.true_or]

/-- **Unmapping keeps the promise exactly when it stays above the hint.** -/
theorem unmapped_hintOk_iff (hg : Good s) (hok : HintOk s) {v n : Nat}
    (hleft : Leaves s s' (fun k => kernelUsed s k && !inPages v n k) s.firstPotentialKernelPage) :
    HintOk s' ↔ ∀ k, k < hintPage s → inPages v n k = false := by
  rw [hg.hint_eq hok.above] at hleft
  rw [hleft.hintOk_iff hok.below]
  refine forall₂_congr fun k hk => ?_
  rw [hok.present k hk, Bool.true_and, Bool.not_eq_true']

end Promise

/-! ## §2. Runs. -/

/-- What can happen to the kernel's pages. -/
inductive KernelEvent
  | newPager
  | lock (p : Nat)
  | unlock (p : Nat)
  | map (p phys virt length : Nat) (flags : PageFlags)
  | unmap (p virt length : Nat)
  | kmap (p phys length : Nat) (flags : PageFlags) (start : Nat)
  | kalloc (p length start : Nat)
  | free (p ptr length : Nat)
  deriving Repr, DecidableEq

/-- One event.  `map`, `unmap` and `free` are called on pages outside the window,
and physical addresses fit an entry. -/
inductive KernelStep : Paging → KernelEvent → Paging → Prop
  | newPager {s s' : Paging} : s.newPager = some s' → KernelStep s .newPager s'
  | lock {s : Paging} {p : Nat} : p < s.pagerCount → KernelStep s (.lock p) (s.lock p)
  | unlock {s : Paging} {p : Nat} : Locked s p → KernelStep s (.unlock p) (s.unlock p)
  | map {s s' : Paging} {p phys virt n : Nat} {flags : PageFlags} : Locked s p →
      pageOf virt + n ≤ windowPage → phys >>> 12 + n ≤ 2 ^ 40 →
      s.map p phys virt n flags = some s' → KernelStep s (.map p phys virt n flags) s'
  | unmap {s s' : Paging} {p virt n addr : Nat} : Locked s p → virt < 2 ^ 64 →
      pageOf virt + n ≤ windowPage → s.unmap p virt n = some (addr, s') →
      KernelStep s (.unmap p virt n) s'
  | kmap {s s' : Paging} {p phys n start : Nat} {flags : PageFlags} : Locked s p →
      phys >>> 12 + n ≤ 2 ^ 40 → s.kmap p phys n flags = some (start, s') →
      KernelStep s (.kmap p phys n flags start) s'
  | kalloc {s s' : Paging} {p n start : Nat} : Locked s p →
      s.kalloc p n = some (start, s') → KernelStep s (.kalloc p n start) s'
  | free {s s' : Paging} {p ptr n : Nat} : Locked s p → pageOf ptr + n ≤ windowPage →
      GivesBackSpare s p ptr n → s.free p ptr n = some s' → KernelStep s (.free p ptr n) s'

/-- The searches find their place at the first free page, and nothing below the
hint is unmapped. -/
def SparesHint (_ : List KernelEvent) (s : Paging) : KernelEvent → Prop
  | .kmap _ _ n _ _ => FitsAtHint s n
  | .kalloc _ n _ => FitsAtHint s n
  | .unmap _ virt n => ∀ k, k < hintPage s → inPages (pageOf virt) n k = false
  | .free _ ptr n => ∀ k, k < hintPage s → inPages (pageOf ptr) n k = false
  | _ => True

section Runs

variable {s s' : Paging}

theorem newPager_hint (hs : s.newPager = some s') :
    s'.firstPotentialKernelPage = s.firstPotentialKernelPage := by
  unfold newPager at hs
  simp only [Option.bind_eq_bind, Option.bind_eq_some_iff, Prod.exists, pure,
    Option.some.injEq] at hs
  obtain ⟨pml4, s₁, h₁, index, s₂, h₂, index2, s₃, h₃, pdpt, s₄, h₄, rfl⟩ := hs
  have hcar := hint_carried 0
  have hpml4 := hcar.trans (hcar.palloc h₁) (hcar.aquireWorkpageIndex h₂)
  have hpdpt := hcar.trans (hcar.aquireWorkpageIndex h₃) (hcar.palloc h₄)
  have hkept : s₄.firstPotentialKernelPage = s.firstPotentialKernelPage := hcar.trans hpml4 hpdpt
  exact hkept

/-- `Pager::init` sets the hint to `KERNEL_START`. -/
theorem init_hint {mem : Nat → Nat → PageStructuresEntry} {used : Nat → Bool} {supply : List Nat}
    {kernelBaseP kernelBaseV : Nat} {pmrs : List Pmr}
    (hs : init mem used supply kernelBaseP kernelBaseV pmrs = some s') :
    s'.firstPotentialKernelPage = kernelStart := by
  unfold init at hs
  simp only [Option.bind_eq_bind, Option.bind_eq_some_iff, Prod.exists, pure,
    Option.some.injEq] at hs
  obtain ⟨initPml4, initPdpt, s₁, -, s₂, -, s₃, -, s₄, h₄, rfl⟩ := hs
  have hkept := newPager_hint h₄
  exact hkept

/-- What every state of a run meets. -/
structure Promised (s : Paging) : Prop where
  good : Good s
  some : 0 < s.pagerCount
  hint : HintOk s

theorem Booted.promised (hboot : Booted s) : Promised s := by
  obtain ⟨mem, used, supply, kernelBaseP, kernelBaseV, pmrs, hinit⟩ := hboot
  obtain ⟨hg, hcount, -, -⟩ := init_good hinit
  have hpage : hintPage s = 0 := hintPage_of_eq (k := 0) (init_hint hinit)
  refine ⟨hg, by rw [hcount]; decide, ?_, ?_, ?_⟩
  · rw [init_hint hinit]
  · rw [hpage]
    decide
  · intro k hk
    rw [hpage] at hk
    exact absurd hk (Nat.not_lt_zero k)

/-- Where the pages and the hint are as before, so is the promise. -/
theorem HintOk.congr (hok : HintOk s) (hused : kernelUsed s' = kernelUsed s)
    (hhint : s'.firstPotentialKernelPage = s.firstPotentialKernelPage) : HintOk s' := by
  have hpage : hintPage s' = hintPage s := by
    unfold hintPage
    rw [hhint]
  refine ⟨by rw [hhint]; exact hok.above, by rw [hpage]; exact hok.below, fun k hk => ?_⟩
  rw [hpage] at hk
  rw [hused]
  exact hok.present k hk

/-- **Step lemma.** -/
theorem kernelHint_step {hist : List KernelEvent} {e : KernelEvent} (h : Promised s)
    (hspares : SparesHint hist s e) (hst : KernelStep s e s') : Promised s' := by
  obtain ⟨hg, h0, hok⟩ := h
  cases hst with
  | newPager hs =>
      obtain ⟨hg', hcr⟩ := newPager_good hg hs
      exact ⟨hg', by rw [hcr.count]; exact Nat.succ_pos _,
        hok.congr (hcr.kernelUsed h0) hcr.hint⟩
  | @lock p _ =>
      have hq := lock_quiet hg p
      exact ⟨hq.good, by rw [hq.count]; exact h0, hok.congr (hq.kernelUsed h0) rfl⟩
  | @unlock p _ =>
      have hq := unlock_quiet hg p
      exact ⟨hq.good, by rw [hq.count]; exact h0, hok.congr (hq.kernelUsed h0) (unlock_hint s p)⟩
  | map hp hv hphys hs =>
      have hleft := map_leaves hg hp hv hphys hs
      exact ⟨hleft.good, by rw [hleft.count]; exact h0, mapped_hintOk hg hok hleft⟩
  | unmap hp h64 hv hs =>
      have hleft := unmap_leaves hg hp h64 hv hs
      exact ⟨hleft.good, by rw [hleft.count]; exact h0,
        (unmapped_hintOk_iff hg hok hleft).mpr hspares⟩
  | kmap hp hphys hs =>
      have hfits : FitsAtHint s _ := hspares
      obtain ⟨a, -, hfits', hmin, hleft⟩ := kmap_leaves hg hok hp hfits.choose_spec.1 hphys hs
      exact ⟨hleft.good, by rw [hleft.count]; exact h0,
        (taken_hintOk_iff hok hfits' hmin hleft).mpr hfits⟩
  | kalloc hp hs =>
      have hfits : FitsAtHint s _ := hspares
      obtain ⟨a, -, hfits', hmin, hleft⟩ := kalloc_leaves hg hok hp hfits.choose_spec.1 hs
      exact ⟨hleft.good, by rw [hleft.count]; exact h0,
        (taken_hintOk_iff hok hfits' hmin hleft).mpr hfits⟩
  | free hp hv hspare hs =>
      have hleft := free_leaves hg hp hv hspare _ _ (Nat.le_refl _) hs
      exact ⟨hleft.good, by rw [hleft.count]; exact h0,
        (unmapped_hintOk_iff hg hok hleft).mpr hspares⟩

/-- **THE KERNEL HINT.**  In every run whose searches find their place at the first
free page and that unmaps nothing below the hint, every page between
`KERNEL_START` and the hint is present; and `kalloc` and `kmap` return the lowest
run of free kernel pages there is. -/
theorem kernel_hint_invariant {s₀ : Paging} {hist : List KernelEvent} (hboot : Booted s₀)
    (hrun : GuardedRun KernelStep SparesHint s₀ hist s) :
    (kernelStart ≤ s.firstPotentialKernelPage
      ∧ ∀ p k, p < s.pagerCount → kernelAddr k < s.firstPotentialKernelPage →
        (translate s p (pageOf (kernelAddr k))).isSome = true)
    ∧ ∀ p n b, Locked s p → OnlyLocked s p → 1 ≤ n → FreeRun (kernelUsed s) n b →
        Supplied s (4 * n + 3 * n * (b - hintPage s + 1)) →
        ∃ a, IsFirstFit (kernelUsed s) n a
          ∧ (∃ s', s.kalloc p n = some (kernelAddr a, s'))
          ∧ ∀ phys flags, phys >>> 12 + n ≤ 2 ^ 40 →
            ∃ s', s.kmap p phys n flags = some (kernelAddr a + phys % 2 ^ 12, s') := by
  have hpromised : Promised s := by
    refine hrun.historyInvariant (fun _ s => Promised s) hboot.promised ?_
    intro hist s e s' h hspares hst
    exact kernelHint_step h hspares hst
  obtain ⟨hg, h0, hok⟩ := hpromised
  have hhint := hg.hint_eq hok.above
  refine ⟨⟨hok.above, ?_⟩, ?_⟩
  · intro p k hp hk
    have hlt : k < hintPage s := by
      rw [hhint] at hk
      unfold kernelAddr at hk
      omega
    have hbelow := hok.below
    obtain ⟨owner, c, hinv, -⟩ := hg.tables
    rw [pageOf_kernelAddr (by omega), hinv.translate_kernel h0 hp (by
      rw [Nat.mod_eq_of_lt (by unfold windowPage at hbelow; omega)]
      exact Nat.le_add_right _ _), ← kernelUsed_of_lt (by omega)]
    exact hok.present k hlt
  · intro p n b hp honly hn hfree hsup
    have hfits := hok.fitsAbove hn hfree
    obtain ⟨start, s₁, hs₁⟩ := kalloc_some hg hok hp honly hfits hsup
    obtain ⟨a, rfl, hfits', hmin, -⟩ := kalloc_leaves hg hok hp hfits hs₁
    have hfirst := hok.isFirstFit hn hfits' hmin
    refine ⟨a, hfirst, ⟨s₁, hs₁⟩, fun phys flags hphys => ?_⟩
    have hdist : (kernelAddr b - s.firstPotentialKernelPage) / 2 ^ 12 = b - hintPage s := by
      rw [hhint]
      unfold kernelAddr
      omega
    obtain ⟨r, s₂, hs₂, -, -⟩ := kmap_some hg flags hp honly hphys hok.above
      (by rw [hhint]; unfold kernelAddr; have := hfits.1; omega) (hfits.freeAt hg hp)
      (by rw [hdist]; exact hsup.mono (by omega))
    obtain ⟨a', rfl, hfits₂, hmin₂, -⟩ := kmap_leaves hg hok hp hfits hphys hs₂
    rw [(hok.isFirstFit hn hfits₂ hmin₂).unique hfirst] at hs₂
    exact ⟨s₂, hs₂⟩

/-- The machine of `demoInit`, its pager locked, and after one and after two pages
from `kalloc`. -/
def demoKalloc : Option (Paging × Paging × Paging) := do
  let s₀ ← demoInit
  let (_, s₁) ← (s₀.lock 0).kalloc 0 1
  let (_, s₂) ← s₁.kalloc 0 1
  return (s₀, s₁, s₂)

theorem demoKalloc_run : ∃ s₀ s₁ s₂, Booted s₀ ∧ Locked s₂ 0 ∧ demoKalloc = some (s₀, s₁, s₂)
    ∧ GuardedRun KernelStep SparesHint s₀
      [.kalloc 0 1 (kernelAddr 1), .kalloc 0 1 (kernelAddr 0), .lock 0] s₂ := by
  have hseen : (demoKalloc.map fun x => (kernelUsed (x.1.lock 0) 0,
      (x.1.lock 0).firstPotentialKernelPage, kernelUsed x.2.1 0, kernelUsed x.2.1 1,
      x.2.1.firstPotentialKernelPage, x.2.2.firstPotentialKernelPage))
      = some (false, kernelAddr 0, true, false, kernelAddr 0, kernelAddr 1) := by decide +kernel
  obtain ⟨⟨s₀, s₁, s₂⟩, hdemo, hseen⟩ := Option.map_eq_some_iff.mp hseen
  have hstates := hdemo
  unfold demoKalloc at hdemo
  simp only [Option.bind_eq_bind, Option.bind_eq_some_iff, Prod.exists, pure, Option.some.injEq,
    Prod.mk.injEq] at hdemo hseen
  obtain ⟨s₀', hinit, start₁, s₁', hs₁, start₂, s₂', hs₂, rfl, rfl, rfl⟩ := hdemo
  obtain ⟨hfree₀, hhint₀, hused₁, hfree₁, hhint₁, hhint₂⟩ := hseen
  have hboot : Booted s₀' := ⟨_, _, _, _, _, _, hinit⟩
  have hcount := (init_good hinit).2.1
  have hlock : GuardedRun KernelStep SparesHint s₀' [.lock 0] (s₀'.lock 0) :=
    GuardedRun.step GuardedRun.init trivial (.lock (by rw [hcount]; decide))
  have hp : Locked (s₀'.lock 0) 0 := ⟨Nat.lt_of_lt_of_eq (by decide) hcount.symm, Nat.succ_pos _⟩
  -- both pages are found where the hint points, or one page on
  have hfits₀ : FitsAtHint (s₀'.lock 0) 1 := by
    refine ⟨0, ⟨?_, by decide, ?_⟩, fun k _ hk => absurd hk (Nat.not_lt_zero k)⟩
    · rw [hintPage_of_eq hhint₀]
    · intro i hi
      rw [Nat.lt_one_iff.mp hi]
      exact hfree₀
  have hfits₁ : FitsAtHint s₁' 1 := by
    refine ⟨1, ⟨?_, by decide, ?_⟩, fun k _ hk => ?_⟩
    · rw [hintPage_of_eq hhint₁]
      decide
    · intro i hi
      rw [Nat.lt_one_iff.mp hi]
      exact hfree₁
    · rw [Nat.lt_one_iff.mp hk]
      exact hused₁
  have hspares₀ : SparesHint [.lock 0] (s₀'.lock 0) (.kalloc 0 1 start₁) := hfits₀
  have hspares₁ : SparesHint [.kalloc 0 1 start₁, .lock 0] s₁' (.kalloc 0 1 start₂) := hfits₁
  have hspares : SparesHint [] s₀' (.lock 0) := trivial
  have hok₀ : Promised (s₀'.lock 0) :=
    kernelHint_step (Booted.promised hboot) hspares (.lock (by rw [hcount]; decide))
  obtain ⟨a₁, hstart₁, -, -, hleft₁⟩ :=
    kalloc_leaves hok₀.good hok₀.hint hp hfits₀.choose_spec.1 hs₁
  have hok₁ := kernelHint_step hok₀ hspares₀ (.kalloc hp hs₁)
  have hp₁ := hleft₁.locked hp
  obtain ⟨a₂, hstart₂, -, -, hleft₂⟩ :=
    kalloc_leaves hok₁.good hok₁.hint hp₁ hfits₁.choose_spec.1 hs₂
  rw [← hleft₁.hint, hhint₁] at hstart₁
  rw [← hleft₂.hint, hhint₂] at hstart₂
  subst hstart₁ hstart₂
  exact ⟨s₀', s₁', s₂', hboot, hleft₂.locked hp₁, hstates,
    (hlock.step hspares₀ (.kalloc hp hs₁)).step hspares₁ (.kalloc hp₁ hs₂)⟩

theorem kernel_hint_invariant_two_pages :
    ∃ s₀ s, Booted s₀
      ∧ GuardedRun KernelStep SparesHint s₀
        [.kalloc 0 1 (kernelAddr 1), .kalloc 0 1 (kernelAddr 0), .lock 0] s
      ∧ kernelAddr 0 < s.firstPotentialKernelPage
      ∧ (translate s 0 (pageOf (kernelAddr 0))).isSome = true := by
  obtain ⟨s₀, s₁, s, hboot, hp, hdemo, hrun⟩ := demoKalloc_run
  have hseen : (demoKalloc.map fun x => x.2.2.firstPotentialKernelPage)
      = some (kernelAddr 1) := by decide +kernel
  rw [hdemo] at hseen
  have hhint : s.firstPotentialKernelPage = kernelAddr 1 := Option.some.inj hseen
  have hlt : kernelAddr 0 < s.firstPotentialKernelPage := by
    rw [hhint]
    decide
  exact ⟨s₀, s, hboot, hrun, hlt, (kernel_hint_invariant hboot hrun).1.2 0 0 hp.1 hlt⟩

/-- **A page given back is lost**: two pages are allocated and the first is
unmapped again.  It lies below the hint now, and the next page `kalloc` returns
is the third. -/
theorem unmapped_page_lost :
    ∃ s₀ s s', Booted s₀
      ∧ Run KernelStep s₀ [.unmap 0 (kernelAddr 0) 1, .kalloc 0 1 (kernelAddr 1),
          .kalloc 0 1 (kernelAddr 0), .lock 0] s
      ∧ kernelAddr 0 < s.firstPotentialKernelPage
      ∧ translate s 0 (pageOf (kernelAddr 0)) = none
      ∧ FreeRun (kernelUsed s) 1 0 ∧ s.kalloc 0 1 = some (kernelAddr 2, s') := by
  obtain ⟨s₀, s₁, s₂, hboot, hp, hdemo, hrun⟩ := demoKalloc_run
  have hseen : (demoKalloc.bind fun x => (x.2.2.unmap 0 (kernelAddr 0) 1).bind fun y =>
      (y.2.kalloc 0 1).map fun z => (z.1, y.2.firstPotentialKernelPage, kernelUsed y.2 0,
        (translate y.2 0 (pageOf (kernelAddr 0))).isNone))
      = some (kernelAddr 2, kernelAddr 1, false, true) := by decide +kernel
  rw [hdemo, Option.bind_some] at hseen
  obtain ⟨⟨addr, s⟩, hunmap, hseen⟩ := Option.bind_eq_some_iff.mp hseen
  obtain ⟨⟨start, s'⟩, hkalloc, hseen⟩ := Option.map_eq_some_iff.mp hseen
  simp only [Prod.mk.injEq] at hseen
  obtain ⟨rfl, hhint, hfree, hnone⟩ := hseen
  refine ⟨s₀, s, s', hboot, hrun.run.step (.unmap hp (by decide) (by decide) hunmap), ?_,
    Option.isNone_iff_eq_none.mp hnone, ?_, hkalloc⟩
  · rw [hhint]
    decide
  · intro i hi
    rw [Nat.lt_one_iff.mp hi]
    exact hfree

end Runs

end Paging

end MierOS.Memory.Virtual
