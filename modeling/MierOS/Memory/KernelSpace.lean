/-
  MierOS.Memory.KernelSpace
  **THE KERNEL'S PART OF THE ADDRESS SPACE**, and the hint where its search
  for free pages starts.

  `kalloc` and `kmap` search from `first_potential_kernel_page`.  That hint
  moves with every failed candidate, so it ends at the range that is handed
  out, and it never moves back (`unmap_hint`).  The pages between
  `KERNEL_START` and the work-page window are read as a bitmap `kernelUsed`.

  Main results: `getFreeRangeLoop_first`, `kalloc_leaves`, `kmap_leaves`,
  `free_leaves`, `kalloc_some`.
-/
import MierOS.Lib.FirstFit
import MierOS.Memory.PagerFrame
import MierOS.Memory.PagerRun

namespace MierOS.Memory.Virtual

open Lib Lib.FirstFit

namespace Paging

/-! ## §1. `kalloc` and `free`. -/

/-- `pfree(addr, 1)`. -/
def pfree (s : Paging) (addr : Nat) : Paging :=
  { s with used := fun x => if x = addr >>> 12 then false else s.used x }

/-- The flags `kalloc` maps with. -/
def kallocFlags : PageFlags := .of true true false false true false

/-- One round of the loop of `kalloc`. -/
def kallocRound (p start : Nat) (s : Paging) (i : Nat) : Option Paging := do
  let (frame, s) ← s.palloc
  s.map p (frame <<< 12) ((start + (i <<< 12)) % 2 ^ 64) 1 kallocFlags

/-- `kalloc(length)`. -/
def kalloc (s : Paging) (p length : Nat) : Option (Nat × Paging) := do
  let (start, s) ← s.getFreeRange p s.firstPotentialKernelPage length
  if start = 0 then return (0, s)
  else
    let s ← (List.range length).foldlM (kallocRound p start) s
    return (start, s)

/-- One round of the loop of `free`. -/
def freeRound (p ptr : Nat) (s : Paging) (i : Nat) : Option Paging := do
  let (addr, s) ← s.unmap p ((ptr + (i <<< 12)) % 2 ^ 64) 1
  return s.pfree addr

/-- `free(ptr, length)`. -/
def free (s : Paging) (p ptr length : Nat) : Option Paging :=
  (List.range length).foldlM (freeRound p ptr) s

/-! ## §2. What leaves the hint alone. -/

section Hint

variable {s s' : Paging}

/-- **`unmap` never moves the hint**: it compares the page NUMBER with
`KERNEL_START`. -/
theorem unmap_hint {p virt n addr : Nat} (h64 : virt < 2 ^ 64)
    (hs : s.unmap p virt n = some (addr, s')) :
    s'.firstPotentialKernelPage = s.firstPotentialKernelPage := by
  unfold unmap at hs
  simp only [Option.bind_eq_bind, Option.bind_eq_some_iff, Prod.exists, pure, Option.some.injEq,
    Prod.mk.injEq] at hs
  obtain ⟨w, s₁, hget, addr', s₂, hloop, -, rfl⟩ := hs
  rw [if_neg (pageNumber_below_kernel h64 s₂.firstPotentialKernelPage)]
  have hcar := hint_carried p
  exact hcar.trans (hcar.getWorkpage hget)
    (hcar.foldlM Prod.snd (fun _ _ _ hround => hcar.unmapRound hround) _ hloop)

theorem unlock_hint (s : Paging) (p : Nat) :
    (s.unlock p).firstPotentialKernelPage = s.firstPotentialKernelPage := by
  have hslot : ∀ (t : Paging) (i : Nat),
      (t.releaseSlot p i).firstPotentialKernelPage = t.firstPotentialKernelPage := by
    intro t i
    unfold releaseSlot
    split <;> rfl
  have hfold : ∀ (l : List Nat) (t : Paging),
      (l.foldl (fun s i => s.releaseSlot p i) t).firstPotentialKernelPage
        = t.firstPotentialKernelPage := by
    intro l
    induction l with
    | nil => intro t; rfl
    | cons i l ih =>
        intro t
        rw [List.foldl_cons, ih, hslot]
  exact hfold (List.range 4) s

end Hint

/-! ## §3. The kernel pages as a bitmap. -/

/-- Kernel page `k` is not to be had: it is present, or a work page. -/
def kernelUsed (s : Paging) (k : Nat) : Bool :=
  decide (windowPage ≤ kernelPage + k) || (translate s 0 (kernelPage + k)).isSome

/-- The address of kernel page `k`. -/
def kernelAddr (k : Nat) : Nat := kernelStart + k * 0x1000

/-- The kernel page the hint points at. -/
def hintPage (s : Paging) : Nat := (s.firstPotentialKernelPage - kernelStart) / 0x1000

theorem pageOf_kernelAddr {k : Nat} (hk : kernelPage + k ≤ windowPage) :
    pageOf (kernelAddr k) = kernelPage + k := by
  rw [pageOf_eq]
  unfold kernelAddr kernelStart kernelPage windowPage at *
  omega

theorem kernelAddr_lt {k : Nat} (hk : kernelPage + k ≤ windowPage) : kernelAddr k < 2 ^ 64 := by
  unfold kernelAddr kernelStart kernelPage windowPage at *
  omega

theorem kernelAddr_aligned (k : Nat) : kernelAddr k % 2 ^ 12 = 0 := by
  unfold kernelAddr kernelStart
  omega

theorem kernelAddr_pos (k : Nat) : 2 ^ 12 ≤ kernelAddr k := by
  unfold kernelAddr kernelStart
  omega

/-- A page address behind kernel page `k`. -/
theorem kernelAddr_add {k : Nat} (i : Nat) (hk : kernelPage + k + i ≤ windowPage) :
    (kernelAddr k + i * 0x1000) % 2 ^ 64 = kernelAddr (k + i) := by
  unfold kernelAddr kernelStart kernelPage windowPage at *
  omega

/-- **What the hint promises**: it lies above `KERNEL_START`, below the window,
and every kernel page below it is present. -/
structure HintOk (s : Paging) : Prop where
  above : kernelStart ≤ s.firstPotentialKernelPage
  below : kernelPage + hintPage s ≤ windowPage
  present : ∀ k, k < hintPage s → kernelUsed s k = true

section Bitmap

variable {s s' : Paging}

theorem Good.hint_eq (hg : Good s) (hk : kernelStart ≤ s.firstPotentialKernelPage) :
    s.firstPotentialKernelPage = kernelAddr (hintPage s) := by
  have hal := hg.aligned
  unfold kernelAddr hintPage kernelStart at *
  omega

theorem hintPage_of_eq {k : Nat} (h : s.firstPotentialKernelPage = kernelAddr k) :
    hintPage s = k := by
  unfold hintPage
  rw [h]
  unfold kernelAddr
  omega

theorem kernelUsed_congr (h : ∀ x, kernelPage ≤ x → x < windowPage →
    (translate s' 0 x).isSome = (translate s 0 x).isSome) : kernelUsed s' = kernelUsed s := by
  funext k
  unfold kernelUsed
  by_cases hk : windowPage ≤ kernelPage + k
  · rw [decide_eq_true hk]
    rfl
  · rw [h _ (Nat.le_add_right _ _) (Nat.lt_of_not_le hk)]

theorem kernelUsed_of_lt {k : Nat} (hk : kernelPage + k < windowPage) :
    kernelUsed s k = (translate s 0 (kernelPage + k)).isSome := by
  unfold kernelUsed
  rw [decide_eq_false (Nat.not_le_of_lt hk), Bool.false_or]

/-- Every pager sees the same kernel pages. -/
theorem kernelUsed_translate (hg : Good s) {p k : Nat} (hp : Locked s p)
    (hk : kernelPage + k < windowPage) :
    (translate s p (kernelPage + k)).isSome = kernelUsed s k := by
  obtain ⟨owner, c, hinv, -⟩ := hg.tables
  rw [kernelUsed_of_lt hk, hinv.translate_kernel (p := 0) (q := p) (Nat.zero_lt_of_lt hp.1) hp.1]
  rw [Nat.mod_eq_of_lt (by unfold windowPage at hk; omega)]
  exact Nat.le_add_right _ _

theorem Steps.kernelUsed (h : Steps s s' id) {p : Nat} (hp : Locked s p) :
    kernelUsed s' = kernelUsed s :=
  kernelUsed_congr fun x _ hx => by
    rw [h.view _ (views_translate s) 0 x (Nat.zero_lt_of_lt (h.locked hp).1) hx]
    rfl

theorem Quiet.kernelUsed (h : Quiet s s') (h0 : 0 < s.pagerCount) :
    kernelUsed s' = kernelUsed s :=
  kernelUsed_congr fun x _ hx => by
    rw [h.view _ (views_translate s) 0 x (by rw [h.count]; exact h0) hx]

theorem Created.kernelUsed (h : Created s s') (h0 : 0 < s.pagerCount) :
    kernelUsed s' = kernelUsed s :=
  kernelUsed_congr fun x _ hx => by
    rw [h.view 0 x h0]
    rw [inWindow_iff, Nat.mod_eq_of_lt (by unfold windowPage at hx; omega)]
    exact Nat.not_le_of_lt hx

theorem Steps.kernelUsed_map {p phys v n : Nat} {flags : PageFlags}
    (h : Steps s s' (fun T => flatMap T p phys v n flags)) (hp : Locked s p) (k : Nat) :
    Paging.kernelUsed s' k
      = (Paging.kernelUsed s k || decide (v ≤ kernelPage + k ∧ kernelPage + k < v + n)) := by
  unfold Paging.kernelUsed
  by_cases hk : windowPage ≤ kernelPage + k
  · rw [decide_eq_true hk]
    rfl
  · rw [decide_eq_false hk, h.view _ (views_translate s) 0 _ (Nat.zero_lt_of_lt (h.locked hp).1)
      (Nat.lt_of_not_le hk)]
    simp only [Bool.false_or, flatMap, flatRange, Nat.le_add_right, or_true, and_true]
    by_cases hin : v ≤ kernelPage + k ∧ kernelPage + k < v + n
    · rw [if_pos hin, decide_eq_true hin, Bool.or_true]
      rfl
    · rw [if_neg hin, decide_eq_false hin, Bool.or_false]

theorem Steps.kernelUsed_unmap {p v n : Nat} (h : Steps s s' (fun T => flatUnmap T p v n))
    (hp : Locked s p) (hv : v + n ≤ windowPage) (k : Nat) :
    Paging.kernelUsed s' k
      = (Paging.kernelUsed s k && !decide (v ≤ kernelPage + k ∧ kernelPage + k < v + n)) := by
  unfold Paging.kernelUsed
  by_cases hk : windowPage ≤ kernelPage + k
  · have hin : ¬ (v ≤ kernelPage + k ∧ kernelPage + k < v + n) := by omega
    rw [decide_eq_true hk, decide_eq_false hin]
    rfl
  · rw [decide_eq_false hk, h.view _ (views_translate s) 0 _ (Nat.zero_lt_of_lt (h.locked hp).1)
      (Nat.lt_of_not_le hk)]
    simp only [Bool.false_or, flatUnmap, flatRange, Nat.le_add_right, or_true, and_true]
    by_cases hin : v ≤ kernelPage + k ∧ kernelPage + k < v + n
    · rw [if_pos hin, decide_eq_true hin, Bool.not_true, Bool.and_false]
      rfl
    · rw [if_neg hin, decide_eq_false hin, Bool.not_false, Bool.and_true]

end Bitmap

/-! ## §4. The search. -/

section Search

variable {s s' : Paging}

/-- A used page in the way, at kernel page `j + i`. -/
theorem probe_used (hg : Good s) {p j i offset : Nat} (hp : Locked s p)
    (hi : offset = 0 + i * 0x1000) (hk : kernelPage + j + i ≤ windowPage)
    (hmapped : pageOf ((kernelAddr j + offset) % 2 ^ 64) < windowPage →
      (translate s p (pageOf ((kernelAddr j + offset) % 2 ^ 64))).isSome = true) :
    kernelUsed s (j + i) = true := by
  rw [Nat.zero_add] at hi
  rw [hi, kernelAddr_add i hk, pageOf_kernelAddr (by omega)] at hmapped
  by_cases hwin : kernelPage + (j + i) < windowPage
  · rw [← kernelUsed_translate hg hp hwin]
    exact hmapped hwin
  · unfold kernelUsed
    rw [decide_eq_true (Nat.le_of_not_lt hwin)]
    rfl

/-- **The search finds the first fit** at or above the kernel page it starts at,
and takes the hint along. -/
theorem getFreeRangeLoop_first {p n start b : Nat} :
    ∀ fuel j s, Good s → Locked s p → s.firstPotentialKernelPage = kernelAddr j → j ≤ b →
      kernelPage + b + n ≤ windowPage → FreeRun (kernelUsed s) n b →
      getFreeRangeLoop p n fuel (kernelAddr j) s = some (start, s') →
      ∃ a, start = kernelAddr a ∧ j ≤ a ∧ a ≤ b ∧ FreeRun (kernelUsed s) n a
        ∧ (∀ c, j ≤ c → c < a → ¬ FreeRun (kernelUsed s) n c)
        ∧ Steps s s' id ∧ s'.firstPotentialKernelPage = kernelAddr a := by
  intro fuel
  induction fuel with
  | zero => intro j s _ _ _ _ _ _ hs; exact absurd hs (by simp [getFreeRangeLoop])
  | succ fuel ih =>
      intro j s hg hp hhint hjb hwin hfree hs
      simp only [getFreeRangeLoop] at hs
      rw [if_neg (by have := kernelAddr_pos j; omega)] at hs
      simp only [Option.bind_eq_bind, Option.bind_eq_some_iff, Prod.exists] at hs
      obtain ⟨hit, s₁, hprobe, hs⟩ := hs
      obtain ⟨hst, hres⟩ := probeRange_steps n 0 s hg hp hprobe
      have hkept := (hint_carried p).probeRange n 0 s hprobe
      cases hit with
      | none =>
          simp only [pure, Option.some.injEq, Prod.mk.injEq] at hs
          obtain ⟨rfl, rfl⟩ := hs
          refine ⟨j, rfl, Nat.le_refl _, hjb, ?_, fun c h1 h2 => absurd h1 (by omega), hst,
            hkept.trans hhint⟩
          intro i hi
          have hnone := hres _ (views_translate s) i hi
          rw [Nat.zero_add, kernelAddr_add i (by omega), pageOf_kernelAddr (by omega)] at hnone
          rw [← kernelUsed_translate hg hp (by omega), hnone (by omega)]
          rfl
      | some offset =>
          obtain ⟨i, hi, ho, hmapped⟩ := hres _ (views_translate s)
          have hused := probe_used hg hp ho (by omega) hmapped
          -- the page in the way lies below the free run
          have hlt : j + i < b := by
            by_contra hge
            exact not_freeRun_of_used hused (by omega) (by omega) hfree
          have hnext : (kernelAddr j + offset + 0x1000) % 2 ^ 64 = kernelAddr (j + i + 1) := by
            rw [ho, Nat.zero_add, Nat.add_assoc, ← Nat.succ_mul]
            exact kernelAddr_add (i + 1) (by omega)
          have hbump := bumpHints_steps hst.good p (kernelAddr_aligned j)
            (show offset % 2 ^ 12 = 0 by omega)
          have hst₂ := hst.trans hbump
          have hsame := hst₂.kernelUsed hp
          have hhint₂ : (s₁.bumpHints p (kernelAddr j) offset).firstPotentialKernelPage
              = kernelAddr (j + i + 1) := by
            show (if kernelAddr j = s₁.firstPotentialKernelPage then _ else _) = _
            rw [if_pos (by rw [hkept, hhint])]
            exact hnext
          dsimp only at hs
          rw [hnext] at hs
          obtain ⟨a, hstart, hle, hab, hrun, hmin, hst₃, hhint₃⟩ := ih (j + i + 1) _ hst₂.good
            (hst₂.locked hp) hhint₂ (by omega) hwin (by rw [hsame]; exact hfree) hs
          rw [hsame] at hrun hmin
          refine ⟨a, hstart, by omega, hab, hrun, ?_, hst₂.trans hst₃, hhint₃⟩
          intro c hjc hca
          by_cases hc : c ≤ j + i
          · exact not_freeRun_of_used hused hc (by omega)
          · exact hmin c (by omega) hca

/-- A place for `n` pages at or above the hint. -/
def FitsAbove (s : Paging) (n b : Nat) : Prop :=
  hintPage s ≤ b ∧ kernelPage + b + n ≤ windowPage ∧ FreeRun (kernelUsed s) n b

/-- Under an honest hint every place is above it. -/
theorem HintOk.fitsAbove (hok : HintOk s) {n b : Nat} (hn : 1 ≤ n)
    (hfree : FreeRun (kernelUsed s) n b) : FitsAbove s n b := by
  refine ⟨hfree.hint_le hn hok.present, ?_, hfree⟩
  have hlast := hfree (n - 1) (by omega)
  unfold kernelUsed at hlast
  rw [Bool.or_eq_false_iff, decide_eq_false_iff_not] at hlast
  omega

theorem getFreeRange_first (hg : Good s) (hok : HintOk s) {p n start b : Nat} (hp : Locked s p)
    (hfits : FitsAbove s n b)
    (hs : s.getFreeRange p s.firstPotentialKernelPage n = some (start, s')) :
    ∃ a, start = kernelAddr a ∧ FitsAbove s n a
      ∧ (∀ c, hintPage s ≤ c → c < a → ¬ FreeRun (kernelUsed s) n c)
      ∧ Steps s s' id ∧ s'.firstPotentialKernelPage = kernelAddr a := by
  obtain ⟨hjb, hwin, hfree⟩ := hfits
  rw [getFreeRange_eq _ _ _ (by unfold windowPage at hwin; omega), hg.hint_eq hok.above] at hs
  obtain ⟨a, hstart, hja, hab, hrun, hmin, hst, hhint⟩ :=
    getFreeRangeLoop_first _ _ s hg hp (hg.hint_eq hok.above) hjb hwin hfree hs
  exact ⟨a, hstart, ⟨hja, by omega, hrun⟩, hmin, hst, hhint⟩

/-- **A search from an honest hint finds the first fit of all kernel pages.** -/
theorem HintOk.isFirstFit (hok : HintOk s) {n a : Nat} (hn : 1 ≤ n)
    (hfits : FitsAbove s n a)
    (hmin : ∀ c, hintPage s ≤ c → c < a → ¬ FreeRun (kernelUsed s) n c) :
    IsFirstFit (kernelUsed s) n a :=
  ⟨hfits.2.2, fun c hc hrun => hmin c (hrun.hint_le hn hok.present) hc hrun⟩

end Search

/-! ## §5. What a call leaves behind. -/

/-- `s'` is a good state with the locks of `s`, the kernel pages `used` and the
hint `hint`. -/
structure Leaves (s s' : Paging) (used : Nat → Bool) (hint : Nat) : Prop where
  good : Good s'
  count : s'.pagerCount = s.pagerCount
  lockDepth : ∀ q, (s'.pagers q).lockDepth = (s.pagers q).lockDepth
  used : kernelUsed s' = used
  hint : s'.firstPotentialKernelPage = hint

/-- Kernel page `k` is one of the `n` pages from page number `v` on. -/
def inPages (v n k : Nat) : Bool := decide (v ≤ kernelPage + k ∧ kernelPage + k < v + n)

section Calls

variable {s s' s'' : Paging} {used used' : Nat → Bool} {hint hint' : Nat}

theorem Leaves.trans (h : Leaves s s' used hint) (h' : Leaves s' s'' used' hint') :
    Leaves s s'' used' hint' where
  good := h'.good
  count := h'.count.trans h.count
  lockDepth q := (h'.lockDepth q).trans (h.lockDepth q)
  used := h'.used
  hint := h'.hint

theorem Leaves.locked (h : Leaves s s' used hint) {p : Nat} (hp : Locked s p) : Locked s' p := by
  unfold Locked
  rw [h.count, h.lockDepth]
  exact hp

theorem Leaves.refl (hg : Good s) :
    Leaves s s (kernelUsed s) s.firstPotentialKernelPage :=
  ⟨hg, rfl, fun _ => rfl, rfl, rfl⟩

theorem map_leaves (hg : Good s) {p phys virt n : Nat} {flags : PageFlags} (hp : Locked s p)
    (hv : pageOf virt + n ≤ windowPage) (hphys : phys >>> 12 + n ≤ 2 ^ 40)
    (hs : s.map p phys virt n flags = some s') :
    Leaves s s' (fun k => kernelUsed s k || inPages (pageOf virt) n k)
      s.firstPotentialKernelPage := by
  have hst := map_steps hg hp hv hphys hs
  exact ⟨hst.good, hst.count, hst.lockDepth, funext (hst.kernelUsed_map hp),
    (hint_carried p).map hs⟩

theorem unmap_leaves (hg : Good s) {p virt n addr : Nat} (hp : Locked s p) (h64 : virt < 2 ^ 64)
    (hv : pageOf virt + n ≤ windowPage) (hs : s.unmap p virt n = some (addr, s')) :
    Leaves s s' (fun k => kernelUsed s k && !inPages (pageOf virt) n k)
      s.firstPotentialKernelPage := by
  have hst := unmap_steps hg hp h64 hv hs
  exact ⟨hst.good, hst.count, hst.lockDepth, funext (hst.kernelUsed_unmap hp hv), unmap_hint h64 hs⟩

/-- Taking and giving back frames that hold no page structure. -/
theorem setUsed_leaves {owner : Nat → Option Place} {c : Nat} (hg : Good s) (hinv : Inv s owner c)
    (ht : Tidy s c) (used : Nat → Bool) (supply : List Nat)
    (hused : ∀ f l, owner f = some l → used f = s.used f) :
    Leaves s { s with used := used, supply := supply } (kernelUsed s)
      s.firstPotentialKernelPage := by
  obtain ⟨hinv', ht'⟩ := hinv.free ht used hused
  refine ⟨⟨⟨owner, c, ?_, ht'.roots, ht'.slots, ht'.held⟩, hg.current, hg.aligned⟩, rfl,
    fun _ => rfl, rfl, rfl⟩
  exact ⟨hinv'.labelling, hinv'.owned, hinv'.pd0, hinv'.pd1, hinv'.control, hinv'.window,
    hinv'.self, hinv'.root, hinv'.rootTop, hinv'.top, hinv'.work, hinv'.workInj⟩

theorem palloc_leaves (hg : Good s) {f : Nat} (hs : s.palloc = some (f, s')) :
    Leaves s s' (kernelUsed s) s.firstPotentialKernelPage := by
  obtain ⟨hu, -, rfl⟩ := palloc_cases hs
  obtain ⟨owner, c, hinv, ht⟩ := hg.tables
  refine setUsed_leaves hg hinv ht _ _ ?_
  intro g l hg'
  by_cases hfg : g = f
  · rw [if_pos hfg, (hinv.owned g l hg').1]
  · rw [if_neg hfg]

theorem inPages_zero (v k : Nat) : inPages v 0 k = false :=
  decide_eq_false (by omega)

theorem inPages_succ (v m k : Nat) : inPages v (m + 1) k = (inPages v m k || inPages (v + m) 1 k) := by
  unfold inPages
  rw [← Bool.decide_or]
  exact decide_eq_decide.mpr (by omega)

/-- The page that a round of `kalloc` maps. -/
theorem pageOf_round {a m n : Nat} (hwin : kernelPage + a + n ≤ windowPage) (hm : m < n) :
    pageOf ((kernelAddr a + (m <<< 12)) % 2 ^ 64) = kernelPage + a + m := by
  rw [Nat.shiftLeft_eq, show 2 ^ 12 = 0x1000 from rfl, kernelAddr_add m (by omega),
    pageOf_kernelAddr (by omega), Nat.add_assoc]

/-- The loop of `kalloc`, after `m` rounds. -/
theorem kallocLoop_leaves (hg : Good s) {p a n : Nat} (hp : Locked s p)
    (hwin : kernelPage + a + n ≤ windowPage) :
    ∀ m s', m ≤ n → (List.range m).foldlM (kallocRound p (kernelAddr a)) s = some s' →
      Leaves s s' (fun k => kernelUsed s k || inPages (kernelPage + a) m k)
        s.firstPotentialKernelPage := by
  refine loop_invariant ?_ ?_
  · simp only [inPages_zero, Bool.or_false]
    exact Leaves.refl hg
  · intro m s₁ s₂ hm _ hleft hround
    unfold kallocRound at hround
    simp only [Option.bind_eq_bind, Option.bind_eq_some_iff, Prod.exists] at hround
    obtain ⟨frame, s₃, hpal, hmap⟩ := hround
    have hpleft := palloc_leaves hleft.good hpal
    have hp₃ := hpleft.locked (hleft.locked hp)
    obtain ⟨-, h40, -⟩ := palloc_cases hpal
    have hpage := pageOf_round hwin hm
    have hmleft := map_leaves hpleft.good hp₃ (by rw [hpage]; omega)
      (by rw [Nat.shiftLeft_shiftRight]; omega) hmap
    have hall := hleft.trans (hpleft.trans hmleft)
    refine ⟨hall.good, hall.count, hall.lockDepth, ?_, ?_⟩
    · rw [hall.used, hpleft.used, hleft.used, hpage]
      funext k
      rw [inPages_succ (kernelPage + a) m k, Bool.or_assoc]
    · rw [hall.hint, hpleft.hint, hleft.hint]

/-- The frames in use that an entry can name. -/
def usedFrames (s : Paging) : Finset Nat :=
  (Finset.range (2 ^ 40)).filter fun f => s.used f = true

/-- **Every page `kalloc` maps has a frame of its own**, so there are at most
as many as frames. -/
theorem kallocLoop_le {p start m : Nat}
    (hs : (List.range m).foldlM (kallocRound p start) s = some s') : m ≤ 2 ^ 40 := by
  have hcount : ∀ k t, k ≤ m → (List.range k).foldlM (kallocRound p start) s = some t →
      k ≤ (usedFrames t).card := by
    refine loop_invariant (Nat.zero_le _) ?_
    intro k t t' _ _ hk hround
    unfold kallocRound at hround
    simp only [Option.bind_eq_bind, Option.bind_eq_some_iff, Prod.exists] at hround
    obtain ⟨frame, t₁, hpal, hmap⟩ := hround
    have hcar := used_carried p
    have hused := hcar.trans (hcar.palloc hpal) (hcar.map hmap)
    obtain ⟨hfree, h40, rfl⟩ := palloc_cases hpal
    have hframe : t'.used frame = true := hcar.map hmap frame (if_pos rfl)
    -- the frame of this round was not in use before
    refine Nat.lt_of_le_of_lt hk (Finset.card_lt_card ⟨?_, ?_⟩)
    · intro f hf
      rw [usedFrames, Finset.mem_filter] at hf ⊢
      exact ⟨hf.1, hused f hf.2⟩
    · intro hsub
      have hold := hsub (Finset.mem_filter.mpr ⟨Finset.mem_range.mpr h40, hframe⟩)
      rw [usedFrames, Finset.mem_filter, hfree] at hold
      exact absurd hold.2 (by decide)
  refine Nat.le_trans (hcount m s' (Nat.le_refl m) hs) ?_
  have hcard := Finset.card_filter_le (Finset.range (2 ^ 40)) (fun f => s'.used f = true)
  rwa [Finset.card_range] at hcard

/-- **What `kalloc` does**: it takes the first fit above the hint. -/
theorem kalloc_leaves (hg : Good s) (hok : HintOk s) {p n start b : Nat} (hp : Locked s p)
    (hfits : FitsAbove s n b) (hs : s.kalloc p n = some (start, s')) :
    ∃ a, start = kernelAddr a ∧ FitsAbove s n a
      ∧ (∀ c, hintPage s ≤ c → c < a → ¬ FreeRun (kernelUsed s) n c)
      ∧ Leaves s s' (fun k => kernelUsed s k || inPages (kernelPage + a) n k) (kernelAddr a) := by
  unfold kalloc at hs
  simp only [Option.bind_eq_bind, Option.bind_eq_some_iff, Prod.exists] at hs
  obtain ⟨start', s₁, hfind, hs⟩ := hs
  obtain ⟨a, rfl, hfits', hmin, hst, hhint⟩ := getFreeRange_first hg hok hp hfits hfind
  rw [if_neg (by have := kernelAddr_pos a; omega)] at hs
  obtain ⟨s₂, hloop, hs⟩ := Option.bind_eq_some_iff.mp hs
  simp only [pure, Option.some.injEq, Prod.mk.injEq] at hs
  obtain ⟨rfl, rfl⟩ := hs
  have hleft := kallocLoop_leaves hst.good (hst.locked hp) hfits'.2.1 n s₂ (Nat.le_refl n) hloop
  rw [hst.kernelUsed hp, hhint] at hleft
  exact ⟨a, rfl, hfits', hmin, hleft.good, hleft.count.trans hst.count,
    fun q => (hleft.lockDepth q).trans (hst.lockDepth q), hleft.used, hleft.hint⟩

/-- **What `kmap` does**: the same with frames that are given. -/
theorem kmap_leaves (hg : Good s) (hok : HintOk s) {p phys n r b : Nat} {flags : PageFlags}
    (hp : Locked s p) (hfits : FitsAbove s n b) (hphys : phys >>> 12 + n ≤ 2 ^ 40)
    (hs : s.kmap p phys n flags = some (r, s')) :
    ∃ a, r = kernelAddr a + phys % 2 ^ 12 ∧ FitsAbove s n a
      ∧ (∀ c, hintPage s ≤ c → c < a → ¬ FreeRun (kernelUsed s) n c)
      ∧ Leaves s s' (fun k => kernelUsed s k || inPages (kernelPage + a) n k) (kernelAddr a) := by
  unfold kmap at hs
  simp only [Option.bind_eq_bind, Option.bind_eq_some_iff, Prod.exists, pure, Option.some.injEq,
    Prod.mk.injEq] at hs
  obtain ⟨start, s₁, hfind, s₂, hmap, rfl, rfl⟩ := hs
  obtain ⟨a, rfl, hfits', hmin, hst, hhint⟩ := getFreeRange_first hg hok hp hfits hfind
  have hpage := pageOf_kernelAddr (Nat.le_trans (Nat.le_add_right _ n) hfits'.2.1)
  have hleft := map_leaves hst.good (hst.locked hp) (by rw [hpage]; exact hfits'.2.1) hphys hmap
  rw [hst.kernelUsed hp, hhint, hpage] at hleft
  refine ⟨a, ?_, hfits', hmin, hleft.good, hleft.count.trans hst.count,
    fun q => (hleft.lockDepth q).trans (hst.lockDepth q), hleft.used, hleft.hint⟩
  rw [show 0xFFF = 2 ^ 12 - 1 from rfl, Nat.and_two_pow_sub_one_eq_mod]

/-- The frame `f` holds no page structure. -/
def SpareFrame (s : Paging) (f : Nat) : Prop :=
  ∃ owner c, Inv s owner c ∧ Tidy s c ∧ owner f = none

/-- The frames behind the pages `free` is called on are spare when it gets there. -/
def GivesBackSpare (s : Paging) (p ptr n : Nat) : Prop :=
  ∀ m t addr t', m < n → (List.range m).foldlM (freeRound p ptr) s = some t →
    t.unmap p ((ptr + (m <<< 12)) % 2 ^ 64) 1 = some (addr, t') → SpareFrame t' (addr >>> 12)

/-- **What `free` does**, after `m` rounds: it unmaps. -/
theorem free_leaves (hg : Good s) {p ptr n : Nat} (hp : Locked s p)
    (hv : pageOf ptr + n ≤ windowPage) (hspare : GivesBackSpare s p ptr n) :
    ∀ m s', m ≤ n → (List.range m).foldlM (freeRound p ptr) s = some s' →
      Leaves s s' (fun k => kernelUsed s k && !inPages (pageOf ptr) m k)
        s.firstPotentialKernelPage := by
  refine loop_invariant ?_ ?_
  · simp only [inPages_zero, Bool.not_false, Bool.and_true]
    exact Leaves.refl hg
  · intro m s₁ s₂ hm hs₁ hleft hround
    unfold freeRound at hround
    simp only [Option.bind_eq_bind, Option.bind_eq_some_iff, Prod.exists, pure,
      Option.some.injEq] at hround
    obtain ⟨addr, s₃, hunmap, rfl⟩ := hround
    have hpage : pageOf ((ptr + (m <<< 12)) % 2 ^ 64) = pageOf ptr + m := by
      rw [Nat.shiftLeft_eq, show 2 ^ 12 = 0x1000 from rfl, pageOf_probe]
      exact Nat.mod_eq_of_lt (by unfold windowPage at hv; omega)
    have huleft := unmap_leaves hleft.good (hleft.locked hp) (Nat.mod_lt _ (by decide))
      (by rw [hpage]; omega) hunmap
    -- the frame given back is no page structure, so no table changes with it
    obtain ⟨owner, c, hinv, ht, hnone⟩ := hspare m s₁ addr s₃ hm hs₁ hunmap
    have hpleft : Leaves s₃ (s₃.pfree addr) (kernelUsed s₃) s₃.firstPotentialKernelPage := by
      refine setUsed_leaves huleft.good hinv ht _ s₃.supply ?_
      intro f l hf
      rw [if_neg]
      rintro rfl
      rw [hnone] at hf
      exact absurd hf (by simp)
    have hall := hleft.trans (huleft.trans hpleft)
    refine ⟨hall.good, hall.count, hall.lockDepth, ?_, ?_⟩
    · rw [hall.used, huleft.used, hleft.used, hpage]
      funext k
      rw [inPages_succ (pageOf ptr) m k, Bool.not_or, Bool.and_assoc]
    · rw [hall.hint, huleft.hint, hleft.hint]

end Calls

/-! ## §6. `kalloc` returns. -/

section Progress

variable {s s' : Paging}

theorem Leaves.onlyLocked {used : Nat → Bool} {hint p : Nat} (h : Leaves s s' used hint)
    (honly : OnlyLocked s p) : OnlyLocked s' p := fun q hq => honly q (by rw [← h.lockDepth]; exact hq)

theorem FitsAbove.freeAt (hg : Good s) {p n a : Nat} (hp : Locked s p) (h : FitsAbove s n a) :
    FreeAt (translate s) p (kernelAddr a) n := by
  obtain ⟨-, hwin, hfree⟩ := h
  have hpage : pageOf (kernelAddr a) = kernelPage + a := pageOf_kernelAddr (by omega)
  refine ⟨kernelAddr_aligned a, kernelAddr_lt (by omega), by rw [hpage]; exact hwin, ?_⟩
  intro i hi
  rw [hpage, Nat.add_assoc, ← Option.isNone_iff_eq_none, ← Option.not_isSome,
    kernelUsed_translate hg hp (by omega), hfree i hi]
  rfl

/-- The loop of `kalloc` takes four frames a round. -/
theorem kallocLoop_some (hg : Good s) {p a n r : Nat} (hp : Locked s p) (honly : OnlyLocked s p)
    (hwin : kernelPage + a + n ≤ windowPage) (hsup : Supplied s (r + 4 * n)) :
    ∃ s', (List.range n).foldlM (kallocRound p (kernelAddr a)) s = some s' ∧ Supplied s' r := by
  obtain ⟨s', hs', hsup'⟩ := loop_returns (n := n) (f := kallocRound p (kernelAddr a))
    (I := fun m t => Supplied t (r + 4 * (n - m))) hsup (by
      intro m s₁ hm hs₁ hsup₁
      have hleft := kallocLoop_leaves hg hp hwin m s₁ (Nat.le_of_lt hm) hs₁
      obtain ⟨frame, s₂, hpal, hsup₂⟩ :=
        palloc_some (n := r + 4 * (n - (m + 1)) + 3) (hsup₁.mono (by omega))
      have hpleft := palloc_leaves hleft.good hpal
      obtain ⟨-, h40, -⟩ := palloc_cases hpal
      have hpage := pageOf_round hwin hm
      obtain ⟨s₃, hmap, hsup₃⟩ := map_some (m := r + 4 * (n - (m + 1))) hpleft.good kallocFlags
        (hpleft.locked (hleft.locked hp)) (hpleft.onlyLocked (hleft.onlyLocked honly))
        (show pageOf ((kernelAddr a + (m <<< 12)) % 2 ^ 64) + 1 ≤ windowPage by rw [hpage]; omega)
        (show (frame <<< 12) >>> 12 + 1 ≤ 2 ^ 40 by rw [Nat.shiftLeft_shiftRight]; omega)
        (hsup₂.mono (by omega))
      refine ⟨s₃, ?_, hsup₃⟩
      simp only [kallocRound, hpal, hmap, Option.bind_eq_bind, Option.bind_some])
  exact ⟨s', hs', hsup'.mono (Nat.le_add_right _ _)⟩

/-- **`kalloc` returns** when there is a place above the hint and enough frames. -/
theorem kalloc_some (hg : Good s) (hok : HintOk s) {p n b : Nat} (hp : Locked s p)
    (honly : OnlyLocked s p) (hfits : FitsAbove s n b)
    (hsup : Supplied s (4 * n + 3 * n * (b - hintPage s + 1))) :
    ∃ start s', s.kalloc p n = some (start, s') := by
  have hhint := hg.hint_eq hok.above
  have hpos := kernelAddr_pos (hintPage s)
  have hle : kernelAddr (hintPage s) ≤ kernelAddr b := by
    have := hfits.1
    unfold kernelAddr
    omega
  have hdist : (kernelAddr b - kernelAddr (hintPage s)) / 2 ^ 12 = b - hintPage s := by
    unfold kernelAddr
    omega
  have hlt := kernelAddr_lt (Nat.le_trans (Nat.le_add_right _ n) hfits.2.1)
  obtain ⟨start, s₁, hs₁, hlo, -, hsup₁⟩ := getFreeRangeLoop_some (m := 4 * n)
    ((2 ^ 64 - kernelAddr (hintPage s)) / 0x1000 + 2) _ s hg hp honly (by omega) hle
    (kernelAddr_aligned _) (by omega) (hfits.freeAt hg hp) (by rw [hdist]; exact hsup)
  have hfind : s.getFreeRange p s.firstPotentialKernelPage n = some (start, s₁) := by
    have hn := hfits.2.1
    rw [getFreeRange_eq _ _ _ (by unfold windowPage at hn; omega), hhint]
    exact hs₁
  obtain ⟨a, rfl, hfits', -, hst, -⟩ := getFreeRange_first hg hok hp hfits hfind
  obtain ⟨s₂, hs₂, -⟩ := kallocLoop_some hst.good (hst.locked hp) (hst.onlyLocked honly)
    hfits'.2.1 (r := 0) (hsup₁.mono (by omega))
  refine ⟨kernelAddr a, s₂, ?_⟩
  unfold kalloc
  simp only [hfind, Option.bind_eq_bind, Option.bind_some]
  rw [if_neg (by have := kernelAddr_pos a; omega), hs₂]
  rfl

end Progress

end Paging

end MierOS.Memory.Virtual
