/-
  MierOS.Memory.PagerRun
  **RUNS OF THE PAGERS, FROM `Pager::init` ON.**

  Pagers are created, locked and unlocked, and called while locked, in any
  order and number.  Every reachable state is good (`reachable_good`), and then

  Main results: `pager_refines_flat_map`, `pagers_share_kernel_pages`.

  Calls are made on page addresses outside the work-page window.  The window
  is the pager's own: `map_shows_in_window` is the run that shows why.
-/
import MierOS.Lib.Run
import MierOS.Memory.PagerInit
import MierOS.Memory.PagerProgress

namespace MierOS.Memory.Virtual

open Lib

namespace Paging

/-! ## §1. Calls. -/

/-- A call on a pager. -/
inductive PagerCall
  | map (phys virt length : Nat) (flags : PageFlags)
  | unmap (virt length : Nat)
  | kmap (phys length : Nat) (flags : PageFlags)
  | getFlags (virt : Nat)
  | getPhysicalAddress (virt : Nat)
  deriving Repr, DecidableEq

/-- What a call returns. -/
inductive PagerResult
  | done
  | addr (a : Nat)
  | flags (f : PageFlags)
  deriving Repr, DecidableEq

/-- Run a call on pager `p`. -/
def exec (s : Paging) (p : Nat) : PagerCall → Option (PagerResult × Paging)
  | .map phys virt length flags => (s.map p phys virt length flags).map fun s => (.done, s)
  | .unmap virt length => (s.unmap p virt length).map fun (a, s) => (.addr a, s)
  | .kmap phys length flags => (s.kmap p phys length flags).map fun (a, s) => (.addr a, s)
  | .getFlags virt => (s.getFlags p virt).map fun (f, s) => (.flags f, s)
  | .getPhysicalAddress virt => (s.getPhysicalAddress p virt).map fun (a, s) => (.addr a, s)

/-- The call is on pages outside the work-page window, not at address 0, and
on physical addresses that fit an entry. -/
def PagerCall.InRange : PagerCall → Prop
  | .map phys virt length _ => virt ≠ 0 ∧ virt < 2 ^ 64 ∧ pageOf virt + length ≤ windowPage
      ∧ phys >>> 12 + length ≤ 2 ^ 40
  | .unmap virt length => virt ≠ 0 ∧ virt < 2 ^ 64 ∧ pageOf virt + length ≤ windowPage
  | .kmap phys length _ => phys >>> 12 + length ≤ 2 ^ 40
  | .getFlags virt => virt ≠ 0 ∧ virt < 2 ^ 64 ∧ pageOf virt < windowPage
  | .getPhysicalAddress virt => virt ≠ 0 ∧ virt < 2 ^ 64 ∧ pageOf virt < windowPage

/-- `kmap` chooses its pages itself; they too are outside the window and not
at address 0. -/
def PagerCall.Fits : PagerCall → PagerResult → Prop
  | .kmap _ length _, .addr r => 2 ^ 12 ≤ r ∧ pageOf r + length ≤ windowPage
  | _, _ => True

/-! ## §2. The flat map of one pager. -/

/-- A partial function from page numbers to frames and flags. -/
abbrev PageMap := Nat → Option (Nat × PageFlags)

/-- The translations of pager `p`, outside the window. -/
def pageMap (s : Paging) (p : Nat) : PageMap :=
  fun x => if x < windowPage then translate s p x else none

/-- Set exactly the `n` pages from `v` on. -/
def PageMap.map (T : PageMap) (phys v n : Nat) (flags : PageFlags) : PageMap :=
  fun x => if v ≤ x ∧ x < v + n then some (phys + (x - v), { flags with present := true }) else T x

/-- Remove exactly the `n` pages from `v` on. -/
def PageMap.unmap (T : PageMap) (v n : Nat) : PageMap :=
  fun x => if v ≤ x ∧ x < v + n then none else T x

/-- **What a call does to the flat map**, and what it returns. -/
def FlatStep (T : PageMap) : PagerCall → PagerResult → PageMap → Prop
  | .map phys virt n flags, .done, T' => T' = T.map (phys >>> 12) (pageOf virt) n flags
  | .unmap virt n, .addr _, T' => T' = T.unmap (pageOf virt) n
  | .kmap phys n flags, .addr r, T' =>
      T' = T.map (phys >>> 12) (pageOf r) n flags ∧ r % 2 ^ 12 = phys % 2 ^ 12
        ∧ ∀ i, i < n → T (pageOf r + i) = none
  | .getFlags virt, .flags f, T' =>
      T' = T ∧ f = ((T (pageOf virt)).map Prod.snd).getD noFlags
        ∧ (f.present = true ↔ (T (pageOf virt)).isSome = true)
  | .getPhysicalAddress virt, .addr a, T' =>
      T' = T ∧ ∀ f flags, T (pageOf virt) = some (f, flags) → a = f * 2 ^ 12 + virt % 2 ^ 12
  | _, _, _ => False

variable {s s' : Paging}

theorem views_translate (s : Paging) : Views s (translate s) := fun _ _ _ _ => rfl

/-- A step on all flat maps, seen by one pager. -/
theorem Steps.pageMap {f : Flat → Flat} (h : Steps s s' f) {p : Nat} (hp : Locked s p)
    {T' : PageMap} (hT : ∀ x, x < windowPage → f (translate s) p x = T' x)
    (hout : ∀ x, ¬ x < windowPage → T' x = none) : Paging.pageMap s' p = T' := by
  funext x
  unfold Paging.pageMap
  by_cases hx : x < windowPage
  · rw [if_pos hx, h.view _ (views_translate s) p x (h.locked hp).1 hx, hT x hx]
  · rw [if_neg hx, hout x hx]

theorem pageMap_of_lt {p x : Nat} (hx : x < windowPage) : pageMap s p x = translate s p x :=
  if_pos hx

theorem pageMap_of_not_lt {p x : Nat} (hx : ¬ x < windowPage) : pageMap s p x = none :=
  if_neg hx

/-- Mapping, seen by the pager it is done on. -/
theorem Steps.pageMap_map {p phys v n : Nat} {flags : PageFlags}
    (h : Steps s s' (fun T => flatMap T p phys v n flags)) (hp : Locked s p)
    (hv : v + n ≤ windowPage) :
    Paging.pageMap s' p = (Paging.pageMap s p).map phys v n flags := by
  refine h.pageMap hp ?_ ?_
  · intro x hx
    simp only [flatMap, flatRange, PageMap.map, pageMap_of_lt hx, true_or, and_true]
  · intro x hx
    simp only [PageMap.map, pageMap_of_not_lt hx]
    rw [if_neg (by omega)]

theorem Steps.pageMap_unmap {p v n : Nat} (h : Steps s s' (fun T => flatUnmap T p v n))
    (hp : Locked s p) :
    Paging.pageMap s' p = (Paging.pageMap s p).unmap v n := by
  refine h.pageMap hp ?_ ?_
  · intro x hx
    simp only [flatUnmap, flatRange, PageMap.unmap, pageMap_of_lt hx, true_or, and_true]
  · intro x hx
    simp only [PageMap.unmap, pageMap_of_not_lt hx, ite_self]

theorem Steps.pageMap_id {p : Nat} (h : Steps s s' id) (hp : Locked s p) :
    Paging.pageMap s' p = Paging.pageMap s p := by
  refine h.pageMap hp (fun x hx => ?_) (fun x hx => pageMap_of_not_lt hx)
  rw [pageMap_of_lt hx]
  rfl

/-- **One call refines one flat step**, and keeps the state good. -/
theorem exec_flatStep (hg : Good s) {p : Nat} (hp : Locked s p) {call : PagerCall}
    {result : PagerResult} (hr : call.InRange) (hs : s.exec p call = some (result, s'))
    (hfit : call.Fits result) :
    FlatStep (pageMap s p) call result (pageMap s' p) ∧ Good s' ∧ Locked s' p := by
  cases call with
  | map phys virt n flags =>
      simp only [exec, Option.map_eq_some_iff, Prod.mk.injEq] at hs
      obtain ⟨s₁, hs₁, rfl, rfl⟩ := hs
      obtain ⟨-, -, hv, hphys⟩ := hr
      have hst := map_steps hg hp hv hphys hs₁
      exact ⟨hst.pageMap_map hp hv, hst.good, hst.locked hp⟩
  | unmap virt n =>
      simp only [exec, Option.map_eq_some_iff, Prod.mk.injEq, Prod.exists] at hs
      obtain ⟨a, s₁, hs₁, rfl, rfl⟩ := hs
      obtain ⟨-, h64, hv⟩ := hr
      have hst := unmap_steps hg hp h64 hv hs₁
      exact ⟨hst.pageMap_unmap hp, hst.good, hst.locked hp⟩
  | kmap phys n flags =>
      simp only [exec, Option.map_eq_some_iff, Prod.mk.injEq, Prod.exists] at hs
      obtain ⟨r, s₁, hs₁, rfl, rfl⟩ := hs
      obtain ⟨hr0, hrv⟩ := hfit
      obtain ⟨hst, hoff, hfree⟩ := kmap_steps hg hp hr hs₁ hr0 hrv
      refine ⟨⟨hst.pageMap_map hp hrv, hoff, fun i hi => ?_⟩, hst.good, hst.locked hp⟩
      rw [pageMap_of_lt (by omega)]
      exact hfree _ (views_translate s) i hi
  | getFlags virt =>
      simp only [exec, Option.map_eq_some_iff, Prod.mk.injEq, Prod.exists] at hs
      obtain ⟨f, s₁, hs₁, rfl, rfl⟩ := hs
      obtain ⟨hst, hT⟩ := getFlags_steps hg hp hs₁
      obtain ⟨hf, hpres⟩ := hT _ (views_translate s) hr.2.2
      refine ⟨⟨hst.pageMap_id hp, ?_, ?_⟩, hst.good, hst.locked hp⟩
      · rw [pageMap_of_lt hr.2.2]; exact hf
      · rw [pageMap_of_lt hr.2.2, hpres]
  | getPhysicalAddress virt =>
      simp only [exec, Option.map_eq_some_iff, Prod.mk.injEq, Prod.exists] at hs
      obtain ⟨a, s₁, hs₁, rfl, rfl⟩ := hs
      obtain ⟨hst, hT⟩ := getPhysicalAddress_steps hg hp hs₁
      refine ⟨⟨hst.pageMap_id hp, fun f flags hf => ?_⟩, hst.good, hst.locked hp⟩
      rw [pageMap_of_lt hr.2.2] at hf
      exact hT _ (views_translate s) hr.2.2 f flags hf

/-! ## §3. Runs. -/

/-- What can happen to the pagers. -/
inductive PagingEvent
  | newPager
  | lock (p : Nat)
  | unlock (p : Nat)
  | call (p : Nat) (call : PagerCall) (result : PagerResult)
  deriving Repr, DecidableEq

/-- One event.  Pagers are called only while locked. -/
inductive PagingStep : Paging → PagingEvent → Paging → Prop
  | newPager {s s' : Paging} : s.newPager = some s' → PagingStep s .newPager s'
  | lock {s : Paging} {p : Nat} : p < s.pagerCount → PagingStep s (.lock p) (s.lock p)
  | unlock {s : Paging} {p : Nat} : Locked s p → PagingStep s (.unlock p) (s.unlock p)
  | call {s s' : Paging} {p : Nat} {call : PagerCall} {result : PagerResult} :
      Locked s p → call.InRange → s.exec p call = some (result, s') → call.Fits result →
      PagingStep s (.call p call result) s'

/-- The states `Pager::init` can end in. -/
def Booted (s : Paging) : Prop :=
  ∃ mem used supply kernelBaseP kernelBaseV pmrs,
    init mem used supply kernelBaseP kernelBaseV pmrs = some s

/-- **Every reachable state is good.** -/
theorem reachable_good {s₀ : Paging} {hist : List PagingEvent} (hboot : Booted s₀)
    (hrun : Run PagingStep s₀ hist s) : Good s := by
  obtain ⟨mem, used, supply, kernelBaseP, kernelBaseV, pmrs, hinit⟩ := hboot
  refine hrun.invariant Good (init_good hinit).1 ?_
  intro s e s' hg hst
  cases hst with
  | newPager hs => exact (newPager_good hg hs).1
  | lock _ => exact (lock_quiet hg _).good
  | unlock _ => exact (unlock_quiet hg _).good
  | call hp hr hs hfit => exact (exec_flatStep hg hp hr hs hfit).2.1

/-! ## §4. One locked pager. -/

/-- A call of pager `p`. -/
def CallStep (p : Nat) (s : Paging) (e : PagerCall × PagerResult) (s' : Paging) : Prop :=
  e.1.InRange ∧ s.exec p e.1 = some (e.2, s') ∧ e.1.Fits e.2

/-- **A sequence of calls refines a sequence of flat steps.** -/
theorem calls_flatRun (hg : Good s) {p : Nat} (hp : Locked s p)
    {trace : List (PagerCall × PagerResult)} (hrun : Run (CallStep p) s trace s') :
    Run (fun T e T' => FlatStep T e.1 e.2 T') (pageMap s p) trace (pageMap s' p)
      ∧ Good s' ∧ Locked s' p := by
  induction hrun with
  | init => exact ⟨Run.init, hg, hp⟩
  | step _ hst ih =>
      obtain ⟨hflat, hg', hp'⟩ := ih
      obtain ⟨hstep, hg'', hp''⟩ := exec_flatStep hg' hp' hst.1 hst.2.1 hst.2.2
      exact ⟨hflat.step hstep, hg'', hp''⟩

/-- What a call needs to return: fresh frames for the page structures it may
create, three for a page, and for `kmap` a free range above the search hint. -/
def PagerCall.Ready (s : Paging) (p : Nat) : PagerCall → Prop
  | .map _ _ length _ => Supplied s (3 * length)
  | .unmap _ length => Supplied s (3 * length)
  | .kmap _ length _ => kernelStart ≤ s.firstPotentialKernelPage
      ∧ ∃ a, s.firstPotentialKernelPage ≤ a ∧ FreeAt (translate s) p a length
        ∧ Supplied s (3 * length
            + 3 * length * ((a - s.firstPotentialKernelPage) / 2 ^ 12 + 1))
  | .getFlags _ => Supplied s 3
  | .getPhysicalAddress _ => Supplied s 3

/-- **Calls return.** -/
theorem exec_some (hg : Good s) {p : Nat} (hp : Locked s p) (honly : OnlyLocked s p)
    {call : PagerCall} (hr : call.InRange) (hready : call.Ready s p) :
    ∃ result s', s.exec p call = some (result, s') ∧ call.Fits result := by
  cases call with
  | map phys virt n flags =>
      obtain ⟨-, -, hv, hphys⟩ := hr
      obtain ⟨s₁, hs₁, -⟩ := map_some (m := 0) hg flags hp honly hv hphys
        (hready.mono (Nat.le_of_eq (Nat.zero_add _)))
      exact ⟨.done, s₁, by simp only [exec, hs₁, Option.map_some], trivial⟩
  | unmap virt n =>
      obtain ⟨a, s₁, hs₁⟩ := unmap_some (m := 0) hg hp honly hr.2.2
        (hready.mono (Nat.le_of_eq (Nat.zero_add _)))
      exact ⟨.addr a, s₁, by simp only [exec, hs₁, Option.map_some], trivial⟩
  | kmap phys n flags =>
      obtain ⟨hkernel, a, hle, hfree, hsup⟩ := hready
      obtain ⟨r, s₁, hs₁, hr0, hrv⟩ := kmap_some hg flags hp honly hr hkernel hle
        hfree hsup
      exact ⟨.addr r, s₁, by simp only [exec, hs₁, Option.map_some], hr0, hrv⟩
  | getFlags virt =>
      obtain ⟨f, s₁, hs₁, -⟩ := getFlags_some (n := 0) hg hp honly hready virt
      exact ⟨.flags f, s₁, by simp only [exec, hs₁, Option.map_some], trivial⟩
  | getPhysicalAddress virt =>
      obtain ⟨e, s₁, hs₁, -⟩ := entryOf_some (n := 0) hg hp honly hready virt
      exact ⟨.addr (e.address <<< 12 ||| (virt &&& 0xFFF)), s₁,
        by simp only [exec, getPhysicalAddress, hs₁, Option.map_some], trivial⟩

/-- Every byte of a `kmap` range translates to the byte it was mapped to. -/
theorem kmap_translates (hg : Good s) {p phys n r k a : Nat} {flags : PageFlags} {s'' : Paging}
    (hp : Locked s p) (hphys : phys >>> 12 + n ≤ 2 ^ 40)
    (hs : s.kmap p phys n flags = some (r, s')) (hr0 : 2 ^ 12 ≤ r)
    (hr : pageOf r + n ≤ windowPage) (hk : phys % 2 ^ 12 + k < n * 2 ^ 12)
    (hs' : s'.getPhysicalAddress p (r + k) = some (a, s'')) : a = phys + k := by
  obtain ⟨hst, hoff, -⟩ := kmap_steps hg hp hphys hs hr0 hr
  obtain ⟨-, hT⟩ := getPhysicalAddress_steps hst.good (hst.locked hp) hs'
  have hpage : pageOf (r + k) = pageOf r + (phys % 2 ^ 12 + k) / 2 ^ 12 := by
    rw [pageOf_eq] at hr ⊢
    rw [pageOf_eq]
    unfold windowPage at hr
    omega
  have hview := hst.view _ (views_translate s) p (pageOf (r + k)) (hst.locked hp).1 (by omega)
  have hval : translate s' p (pageOf (r + k))
      = some (phys >>> 12 + (phys % 2 ^ 12 + k) / 2 ^ 12, { flags with present := true }) := by
    rw [hview]
    simp only [flatMap, flatRange, true_or, and_true]
    rw [if_pos (by omega), hpage, Nat.add_sub_cancel_left]
  rw [hT _ (views_translate s') (by omega) _ _ hval, Nat.shiftRight_eq_div_pow]
  omega

/-- **THE PAGE TABLES OF A LOCKED PAGER ARE A FLAT MAP.**  In every state the
pagers can reach, every sequence of calls on a locked pager does to `pageMap`
what the calls say; calls return; and `kmap` ranges translate byte by byte. -/
theorem pager_refines_flat_map {s₀ : Paging} {hist : List PagingEvent} {p : Nat}
    (hboot : Booted s₀) (hrun : Run PagingStep s₀ hist s) (hp : Locked s p) :
    (∀ trace s', Run (CallStep p) s trace s' →
        Run (fun T e T' => FlatStep T e.1 e.2 T') (pageMap s p) trace (pageMap s' p))
      ∧ (∀ call : PagerCall, OnlyLocked s p → call.InRange → call.Ready s p →
          ∃ result s', s.exec p call = some (result, s') ∧ call.Fits result)
      ∧ ∀ phys n flags r s' k a s'', (PagerCall.kmap phys n flags).InRange →
          s.exec p (.kmap phys n flags) = some (.addr r, s') →
          (PagerCall.kmap phys n flags).Fits (.addr r) → phys % 2 ^ 12 + k < n * 2 ^ 12 →
          s'.exec p (.getPhysicalAddress (r + k)) = some (.addr a, s'') → a = phys + k := by
  have hg := reachable_good hboot hrun
  refine ⟨fun trace s' hcalls => (calls_flatRun hg hp hcalls).1,
    fun call honly hr hready => exec_some hg hp honly hr hready, ?_⟩
  intro phys n flags r s' k a s'' hr hs hfit hk hs'
  simp only [exec, Option.map_eq_some_iff, Prod.mk.injEq, Prod.exists, PagerResult.addr.injEq] at hs
  simp only [exec, Option.map_eq_some_iff, Prod.mk.injEq, Prod.exists,
    PagerResult.addr.injEq] at hs'
  obtain ⟨r', s₁, hs₁, rfl, rfl⟩ := hs
  obtain ⟨a', s₂, hs₂, rfl, rfl⟩ := hs'
  exact kmap_translates hg hp hr hs₁ hfit.1 hfit.2 hk hs₂

/-- A machine with frames 16..55 free, booted without kernel ranges. -/
def demoInit : Option Paging :=
  init (fun _ _ => .ofRaw 0) (fun f => f < 16) (List.range' 16 40) 0 0 []

/-- Writable user pages. -/
def demoFlags : PageFlags := .of true true true false false false

theorem pager_refines_flat_map_two_pages :
    ∃ s₀ s s', Booted s₀ ∧ Run PagingStep s₀ [.lock 0] s ∧ Locked s 0
      ∧ s.exec 0 (.map 0x500000 0x400000 2 demoFlags) = some (.done, s')
      ∧ Run (fun T e T' => FlatStep T e.1 e.2 T') (pageMap s 0)
          [(.map 0x500000 0x400000 2 demoFlags, .done)] (pageMap s' 0) := by
  have hdone : (demoInit.bind fun s => (s.lock 0).exec 0 (.map 0x500000 0x400000 2 demoFlags)).isSome
      = true := by decide +kernel
  obtain ⟨⟨result, s'⟩, hexec⟩ := Option.isSome_iff_exists.mp hdone
  rw [Option.bind_eq_some_iff] at hexec
  obtain ⟨s₀, hs₀, hexec⟩ := hexec
  have hboot : Booted s₀ := ⟨_, _, _, _, _, _, hs₀⟩
  have hcount := (init_good hs₀).2.1
  have hlock : Run PagingStep s₀ [.lock 0] (s₀.lock 0) :=
    Run.step Run.init (.lock (by rw [hcount]; decide))
  have hp : Locked (s₀.lock 0) 0 := ⟨Nat.lt_of_lt_of_eq (by decide) hcount.symm, Nat.succ_pos _⟩
  have hresult : result = .done := by
    simp only [exec, Option.map_eq_some_iff, Prod.mk.injEq] at hexec
    obtain ⟨_, _, h, _⟩ := hexec
    exact h.symm
  subst hresult
  have hcall : CallStep 0 (s₀.lock 0) (.map 0x500000 0x400000 2 demoFlags, .done) s' :=
    ⟨⟨by decide, by decide, by decide, by decide⟩, hexec, trivial⟩
  exact ⟨s₀, s₀.lock 0, s', hboot, hlock, hp, hexec,
    (pager_refines_flat_map hboot hlock hp).1 _ s' (Run.step Run.init hcall)⟩

/-! ## §5. Several pagers. -/

/-- The call maps or unmaps pages below `KERNEL_START` only. -/
def PagerCall.BelowKernel : PagerCall → Prop
  | .map _ virt length _ => pageOf virt + length ≤ kernelPage
  | .unmap virt length => pageOf virt + length ≤ kernelPage
  | _ => False

/-- A range below `KERNEL_START` is set for one pager only. -/
theorem flatRange_other {T : Flat} {p q v n x : Nat} {e : Nat → Option (Nat × PageFlags)}
    (hq : q ≠ p) (hv : v + n ≤ kernelPage) : flatRange T p v n e q x = T q x := by
  simp only [flatRange]
  rw [if_neg]
  rintro ⟨hlo, hhi, hqp | hk⟩
  · exact hq hqp
  · omega

/-- **ALL PAGERS SHARE THE PAGES ABOVE `KERNEL_START`, AND NOTHING ELSE.** -/
theorem pagers_share_kernel_pages {s₀ : Paging} {hist : List PagingEvent}
    (hboot : Booted s₀) (hrun : Run PagingStep s₀ hist s) :
    (∀ p q v, p < s.pagerCount → q < s.pagerCount → kernelPage ≤ v % 2 ^ 36 →
        translate s p v = translate s q v)
      ∧ ∀ p call result s', PagingStep s (.call p call result) s' → call.BelowKernel →
          ∀ q v, q < s.pagerCount → q ≠ p → v % 2 ^ 36 < windowPage →
            translate s' q v = translate s q v := by
  have hg := reachable_good hboot hrun
  obtain ⟨owner, c, hinv, -⟩ := hg.tables
  refine ⟨fun p q v hp hq hv => hinv.translate_kernel hq hp hv, ?_⟩
  intro p call result s' hst hbelow q v hq hqp hv
  -- reduce to page numbers below 2^36, where the flat maps are indexed
  have hmod : ∀ t : Paging, translate t q v = translate t q (v % 2 ^ 36) :=
    fun t => translate_mod t q (Nat.mod_mod _ _).symm
  rw [hmod s', hmod s]
  cases hst with
  | call hp hr hs hfit =>
      cases call with
      | map phys virt n flags =>
          simp only [exec, Option.map_eq_some_iff, Prod.mk.injEq] at hs
          obtain ⟨s₁, hs₁, -, rfl⟩ := hs
          have hsteps := map_steps hg hp hr.2.2.1 hr.2.2.2 hs₁
          rw [hsteps.view _ (views_translate s) q _ (by rw [hsteps.count]; exact hq) hv]
          exact flatRange_other hqp hbelow
      | unmap virt n =>
          simp only [exec, Option.map_eq_some_iff, Prod.mk.injEq, Prod.exists] at hs
          obtain ⟨a, s₁, hs₁, -, rfl⟩ := hs
          have hsteps := unmap_steps hg hp hr.2.1 hr.2.2 hs₁
          rw [hsteps.view _ (views_translate s) q _ (by rw [hsteps.count]; exact hq) hv]
          exact flatRange_other hqp hbelow
      | kmap phys n flags => exact absurd hbelow id
      | getFlags virt => exact absurd hbelow id
      | getPhysicalAddress virt => exact absurd hbelow id

/-- A machine with two pagers, the first of them locked. -/
def demoTwo : Option Paging := (demoInit.bind newPager).map fun s => s.lock 0

theorem demoTwo_run {s : Paging} (hs : demoTwo = some s) :
    ∃ s₀, Booted s₀ ∧ Run PagingStep s₀ [.lock 0, .newPager] s ∧ s.pagerCount = 2
      ∧ Locked s 0 := by
  unfold demoTwo at hs
  rw [Option.map_eq_some_iff] at hs
  obtain ⟨s₁, hs₁, rfl⟩ := hs
  rw [Option.bind_eq_some_iff] at hs₁
  obtain ⟨s₀, hs₀, hs₁⟩ := hs₁
  have hcount : s₁.pagerCount = 2 := by
    rw [(newPager_good (init_good hs₀).1 hs₁).2.count, (init_good hs₀).2.1]
  have hlt : 0 < s₁.pagerCount := by rw [hcount]; decide
  exact ⟨s₀, ⟨_, _, _, _, _, _, hs₀⟩, (Run.init.step (.newPager hs₁)).step (.lock hlt), hcount,
    hlt, Nat.succ_pos _⟩

theorem pagers_share_kernel_pages_two :
    ∃ s₀ s s', Booted s₀ ∧ Run PagingStep s₀ [.lock 0, .newPager] s
      ∧ PagingStep s (.call 0 (.map 0x500000 0x400000 2 demoFlags) .done) s'
      ∧ (∀ v, kernelPage ≤ v % 2 ^ 36 → translate s 0 v = translate s 1 v)
      ∧ ∀ v, v % 2 ^ 36 < windowPage → translate s' 1 v = translate s 1 v := by
  have hdone : (demoTwo.bind fun s => s.map 0 0x500000 0x400000 2 demoFlags).isSome = true := by
    decide +kernel
  obtain ⟨s', hmap⟩ := Option.isSome_iff_exists.mp hdone
  rw [Option.bind_eq_some_iff] at hmap
  obtain ⟨s, hs, hmap⟩ := hmap
  obtain ⟨s₀, hboot, hrun, hcount, hp⟩ := demoTwo_run hs
  have hstep : PagingStep s (.call 0 (.map 0x500000 0x400000 2 demoFlags) .done) s' :=
    .call hp ⟨by decide, by decide, by decide, by decide⟩
      (by simp only [exec, hmap, Option.map_some]) trivial
  have hshare := pagers_share_kernel_pages hboot hrun
  refine ⟨s₀, s, s', hboot, hrun, hstep, fun v hv => ?_, fun v hv => ?_⟩
  · exact hshare.1 0 1 v (by rw [hcount]; decide) (by rw [hcount]; decide) hv
  · exact hshare.2 0 _ _ s' hstep (by decide : pageOf 0x400000 + 2 ≤ kernelPage) 1 v
      (by rw [hcount]; decide) (by decide) hv

/-- **The window is not part of the bargain.**  Mapping a user page shows the
page structures of pager 0 in work pages, which pager 1 has too; and a call on
the window itself redirects later calls, here the PML4 of pager 0 to that of
pager 1, so that user mappings end up in the wrong pager. -/
theorem map_shows_in_window :
    (¬ ∀ s₀ hist s, Booted s₀ → Run PagingStep s₀ hist s →
        ∀ p phys virt n flags s', Locked s p → s.map p phys virt n flags = some s' →
          virt ≠ 0 → pageOf virt + n ≤ kernelPage →
          ∀ q v, q < s.pagerCount → q ≠ p → translate s' q v = translate s q v)
      ∧ (demoTwo.bind fun s => do
          let s ← s.map 0 0x500000 0x400000 1 demoFlags
          let s ← s.map 0 ((s.pagers 1).pml4 <<< 12)
            (0xFFFFFFFFFFE00000 + ((s.pagers 0).workPages 0).getD 0 * 0x1000) 1 demoFlags
          let s' ← s.map 0 0x700000 0x800000 1 demoFlags
          return ((translate s 1 0x800).isSome, (translate s' 1 0x800).isSome))
        = some (false, true) := by
  constructor
  · intro hclaim
    have hseen : (demoTwo.bind fun s => (s.map 0 0x500000 0x400000 2 demoFlags).map fun s' =>
        ((translate s 1 windowPage).isSome, (translate s' 1 windowPage).isSome))
        = some (false, true) := by
      decide +kernel
    rw [Option.bind_eq_some_iff] at hseen
    obtain ⟨s, hs, hseen⟩ := hseen
    rw [Option.map_eq_some_iff] at hseen
    obtain ⟨s', hmap, hseen⟩ := hseen
    simp only [Prod.mk.injEq] at hseen
    obtain ⟨s₀, hboot, hrun, hcount, hp⟩ := demoTwo_run hs
    have hsame := hclaim s₀ _ s hboot hrun 0 _ _ _ _ s' hp hmap (by decide) (by decide) 1 windowPage
      (by rw [hcount]; decide) (by decide)
    rw [hsame, hseen.1] at hseen
    exact absurd hseen.2 (by decide)
  · decide +kernel

end Paging

end MierOS.Memory.Virtual
