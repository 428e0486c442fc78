/-
  MierOS.Memory.FlatMap
  **THE FOUR-LEVEL TABLES ARE A FLAT MAP PER PAGER**, with one part in common.

  Page numbers are taken modulo 2^36 (a 48-bit address less its offset), the
  last 512 of them being the work-page window.  `flatMap` and `flatUnmap` say
  what `map` and `unmap` do to the translations of ALL pagers at once: pages
  from `kernelPage` on are common, the pages below belong to one pager.

  Main results: `map_spec`, `unmap_spec`, `entryOf_spec`.
-/
import MierOS.Lib.Run
import MierOS.Memory.VirtualInvariant

namespace MierOS.Memory.Virtual

open Lib Lib.TableTree

namespace Paging

/-! ## §1. Page numbers. -/

/-- The page number of an address. -/
def pageOf (virt : Nat) : Nat := (virt >>> 12) % 2 ^ 36

/-- The first page at or above `KERNEL_START`. -/
def kernelPage : Nat := 2 ^ 36 - 2 ^ 19

/-- The first page of the work-page window. -/
def windowPage : Nat := 2 ^ 36 - 2 ^ 9

theorem pml4e_eq (v : Nat) : pml4e v = v / 2 ^ 27 % 2 ^ 9 := by
  unfold pml4e
  rw [show 0x1FF = 2 ^ 9 - 1 from rfl, Nat.and_two_pow_sub_one_eq_mod, Nat.shiftRight_eq_div_pow]

theorem pdpte_eq (v : Nat) : pdpte v = v / 2 ^ 18 % 2 ^ 9 := by
  unfold pdpte
  rw [show 0x1FF = 2 ^ 9 - 1 from rfl, Nat.and_two_pow_sub_one_eq_mod, Nat.shiftRight_eq_div_pow]

theorem pde_eq (v : Nat) : pde v = v / 2 ^ 9 % 2 ^ 9 := by
  unfold pde
  rw [show 0x1FF = 2 ^ 9 - 1 from rfl, Nat.and_two_pow_sub_one_eq_mod, Nat.shiftRight_eq_div_pow]

theorem pte_eq (v : Nat) : pte v = v % 2 ^ 9 := by
  unfold pte
  rw [show 0x1FF = 2 ^ 9 - 1 from rfl, Nat.and_two_pow_sub_one_eq_mod, Nat.shiftRight_zero]

/-- The four indices of a page are the digits of its number. -/
theorem samePage_iff (v v' : Nat) :
    path v' = path v ∧ pte v' = pte v ↔ v' % 2 ^ 36 = v % 2 ^ 36 := by
  simp only [path, List.cons.injEq, and_true, pml4e_eq, pdpte_eq, pde_eq, pte_eq]
  omega

theorem sharedPath_iff (v : Nat) : sharedPath (path v) = true ↔ kernelPage ≤ v % 2 ^ 36 := by
  have h : sharedPath (path v) = true ↔ pml4e v = 511 ∧ (pdpte v = 510 ∨ pdpte v = 511) := by
    simp [sharedPath, path]
    tauto
  rw [h, pml4e_eq, pdpte_eq]
  unfold kernelPage
  omega

theorem inWindow_iff (v : Nat) : InWindow v ↔ windowPage ≤ v % 2 ^ 36 := by
  unfold InWindow windowPage
  simp only [path, List.cons.injEq, and_true, pml4e_eq, pdpte_eq, pde_eq]
  omega

/-- The translation of a page depends on its number only. -/
theorem translate_mod (s : Paging) (p : Nat) {v v' : Nat} (h : v' % 2 ^ 36 = v % 2 ^ 36) :
    translate s p v' = translate s p v := by
  obtain ⟨hpath, hpte⟩ := (samePage_iff v v').mpr h
  unfold translate
  rw [hpath, hpte]

/-! ## §2. The flat maps. -/

/-- The translations of all pagers, by page number. -/
abbrev Flat := Nat → Nat → Option (Nat × PageFlags)

/-- Give page `v` of pager `p` the translation `e`: for every pager if the page
is above `KERNEL_START`. -/
def flatSet (T : Flat) (p v : Nat) (e : Option (Nat × PageFlags)) : Flat :=
  fun q x => if x = v ∧ (q = p ∨ kernelPage ≤ v) then e else T q x

/-- Give pages `v..v+n-1` of pager `p` the translations `e 0..e (n-1)`. -/
def flatRange (T : Flat) (p v n : Nat) (e : Nat → Option (Nat × PageFlags)) : Flat :=
  fun q x => if v ≤ x ∧ x < v + n ∧ (q = p ∨ kernelPage ≤ x) then e (x - v) else T q x

/-- Pages `v..v+n-1` of pager `p` map to the frames from `phys` on. -/
def flatMap (T : Flat) (p phys v n : Nat) (flags : PageFlags) : Flat :=
  flatRange T p v n fun i => some (phys + i, { flags with present := true })

/-- Pages `v..v+n-1` of pager `p` map to nothing. -/
def flatUnmap (T : Flat) (p v n : Nat) : Flat := flatRange T p v n fun _ => none

/-- `s` shows the flat maps `T`, on its pagers and outside the window. -/
def Views (s : Paging) (T : Flat) : Prop :=
  ∀ q x, q < s.pagerCount → x < windowPage → translate s q x = T q x

theorem flatRange_zero (T : Flat) (p v : Nat) (e : Nat → Option (Nat × PageFlags)) :
    flatRange T p v 0 e = T := by
  funext q x
  unfold flatRange
  rw [if_neg (by omega)]

/-- A range is its pages, set one by one. -/
theorem flatRange_succ (T : Flat) (p v n : Nat) (e : Nat → Option (Nat × PageFlags)) :
    flatRange T p v (n + 1) e = flatSet (flatRange T p v n e) p (v + n) (e n) := by
  funext q x
  simp only [flatRange, flatSet]
  by_cases hx : x = v + n
  · subst hx
    by_cases hq : q = p ∨ kernelPage ≤ v + n
    · rw [if_pos ⟨by omega, by omega, hq⟩, if_pos ⟨rfl, hq⟩, Nat.add_sub_cancel_left]
    · rw [if_neg (fun h => hq h.2.2), if_neg (fun h => hq h.2), if_neg (fun h => hq h.2.2)]
  · rw [if_neg (fun h : x = v + n ∧ _ => hx h.1)]
    by_cases hq : v ≤ x ∧ x < v + n ∧ (q = p ∨ kernelPage ≤ x)
    · rw [if_pos ⟨hq.1, by omega, hq.2.2⟩, if_pos hq]
    · rw [if_neg hq, if_neg]
      intro ⟨h1, h2, h3⟩
      exact hq ⟨h1, by omega, h3⟩

/-! ## §3. Writing a page-table entry. -/

section Leaf

variable {s s' : Paging} {owner : Nat → Option Place} {c : Nat}

/-- A page above `KERNEL_START` has one page table, whichever pager looks. -/
theorem Inv.descend_kernel (h : Inv s owner c) {p q v : Nat} (hp : p < s.pagerCount)
    (hq : q < s.pagerCount) (hv : sharedPath (path v) = true) :
    descend next s.mem (s.pagers q).pml4 (path v)
      = descend next s.mem (s.pagers p).pml4 (path v) := by
  have htop : ∀ r, r < s.pagerCount → ∃ d, next (s.mem (s.pagers r).pml4 511) = some d
      ∧ next (s.mem d 510) = some s.kernelPd0 ∧ next (s.mem d 511) = some s.kernelPd1 := by
    intro r hr
    obtain ⟨d, hd⟩ := h.rootTop _ _ (h.root r hr)
    have hown := h.labelling.edge _ _ 511 d (h.root r hr) (show 0 < 3 by decide) hd
    exact ⟨d, hd, h.top d _ hown⟩
  obtain ⟨d, hd, hd0, hd1⟩ := htop p hp
  obtain ⟨d', hd', hd0', hd1'⟩ := htop q hq
  have hcases : pml4e v = 511 ∧ (pdpte v = 510 ∨ pdpte v = 511) := by
    simp [sharedPath, path] at hv
    tauto
  obtain ⟨h4, h3 | h3⟩ := hcases
  · simp only [path, descend, h4, h3, hd, hd', hd0, hd0', Option.bind_some]
  · simp only [path, descend, h4, h3, hd, hd', hd1, hd1', Option.bind_some]

/-- **One translation above `KERNEL_START`** for all pagers. -/
theorem Inv.translate_kernel (h : Inv s owner c) {p q v : Nat} (hp : p < s.pagerCount)
    (hq : q < s.pagerCount) (hv : kernelPage ≤ v % 2 ^ 36) :
    translate s q v = translate s p v := by
  unfold translate lookup
  rw [h.descend_kernel hp hq ((sharedPath_iff v).mpr hv)]

/-- Which pagers reach a page table. -/
theorem Inv.descend_eq_iff (h : Inv s owner c) {p q v v' pt : Nat} (hp : p < s.pagerCount)
    (hq : q < s.pagerCount) (hd : descend next s.mem (s.pagers p).pml4 (path v) = some pt) :
    descend next s.mem (s.pagers q).pml4 (path v') = some pt
      ↔ path v' = path v ∧ (q = p ∨ sharedPath (path v) = true) := by
  constructor
  · intro hd'
    have hown := h.place_of_descend hp hd
    have hown' := h.place_of_descend hq hd'
    rw [hown, Option.some.injEq, Prod.mk.injEq] at hown'
    obtain ⟨hpager, hpath⟩ := hown'
    refine ⟨hpath.symm, ?_⟩
    by_cases hsh : sharedPath (path v) = true
    · exact Or.inr hsh
    · rw [← hpath, if_neg hsh, if_neg hsh] at hpager
      injection hpager with hpager
      exact Or.inl hpager.symm
  · rintro ⟨hpath, rfl | hsh⟩
    · rw [hpath]; exact hd
    · rw [hpath, h.descend_kernel hp hq hsh]; exact hd

theorem Inv.setLeaf (h : Inv s owner c) {pt i : Nat} {l : Place} {e : PageStructuresEntry}
    (hpt : owner pt = some l) (hl : depth l = 3) (hne : pt ≠ c) :
    Inv (s.setEntry pt i e) owner c := by
  have hother : ∀ f j, f ≠ pt → (s.setEntry pt i e).mem f j = s.mem f j := by
    intro f j hf
    rw [setEntry_mem, if_neg (fun hfj => hf hfj.1)]
  have hinner : ∀ f l', owner f = some l' → depth l' < 3 → f ≠ pt := by
    rintro f l' hf hl' rfl
    rw [hpt] at hf
    injection hf with hf
    subst hf
    omega
  refine ⟨h.labelling.write_leaf hpt hl hother, h.owned, h.pd0, h.pd1, h.control, ?_, ?_, h.root,
    ?_, ?_, ?_, h.workInj⟩
  · show next ((s.setEntry pt i e).mem s.kernelPd1 511) = some c
    rw [hother _ _ (hinner _ _ h.pd1 (by decide))]
    exact h.window
  · rw [hother _ _ hne.symm]; exact h.self
  · intro f x hf
    rw [hother _ _ (hinner f _ hf (show 0 < 3 by decide))]
    exact h.rootTop f x hf
  · intro f x hf
    have hfp := hinner f _ hf (show 1 < 3 by decide)
    rw [hother _ _ hfp, hother _ _ hfp]
    exact h.top f x hf
  · intro q k w hw
    rw [hother _ _ hne.symm]
    exact h.work q k w hw

/-- **Writing a page-table entry** changes that page's translation, for every
pager that has the page table. -/
theorem Inv.translate_setLeaf (h : Inv s owner c) {p q v v' pt : Nat} {e : PageStructuresEntry}
    (hp : p < s.pagerCount) (hq : q < s.pagerCount)
    (hd : descend next s.mem (s.pagers p).pml4 (path v) = some pt) :
    translate (s.setEntry pt (pte v) e) q v'
      = if v' % 2 ^ 36 = v % 2 ^ 36 ∧ (q = p ∨ kernelPage ≤ v % 2 ^ 36) then leaf e
        else translate s q v' := by
  have hlook := lookup_write_leaf leaf depth_child h.labelling (h.place_of_descend hp hd) rfl
    (fun f i => setEntry_mem s pt (pte v) f i e) (h.root q hq)
    (show 0 + (path v').length = 3 from rfl) (pte v')
  refine hlook.trans ?_
  have hiff : (descend next s.mem (s.pagers q).pml4 (path v') = some pt ∧ pte v' = pte v)
      ↔ (v' % 2 ^ 36 = v % 2 ^ 36 ∧ (q = p ∨ kernelPage ≤ v % 2 ^ 36)) := by
    rw [h.descend_eq_iff hp hq hd, sharedPath_iff, ← samePage_iff]
    tauto
  rw [if_congr hiff rfl rfl]
  rfl

end Leaf

/-! ## §4. Steps on the flat maps. -/

/-- **A state the pager code keeps**: the page structures are in order, locked
pagers start their walks from the PML4, and the search hint is aligned. -/
structure Good (s : Paging) : Prop where
  tables : ∃ owner c, Inv s owner c ∧ Tidy s c
  current : ∀ q, q < s.pagerCount → 0 < (s.pagers q).lockDepth → (s.pagers q).currentPml4e = -1
  aligned : s.firstPotentialKernelPage % 2 ^ 12 = 0

/-- `s'` is a good state, and shows what `s` shows, changed by `f`. -/
structure Steps (s s' : Paging) (f : Flat → Flat) : Prop where
  good : Good s'
  view : ∀ T, Views s T → Views s' (f T)
  count : s'.pagerCount = s.pagerCount
  lockDepth : ∀ q, (s'.pagers q).lockDepth = (s.pagers q).lockDepth
  held : ∀ q k w, (s.pagers q).workPages k = some w → (s'.pagers q).workPages k = some w

/-- Pager `p` exists and is locked. -/
def Locked (s : Paging) (p : Nat) : Prop := p < s.pagerCount ∧ 0 < (s.pagers p).lockDepth

section Steps

variable {s s' s'' : Paging} {f g : Flat → Flat}

theorem Steps.refl (h : Good s) : Steps s s id :=
  ⟨h, fun _ hT => hT, rfl, fun _ => rfl, fun _ _ _ h => h⟩

theorem Steps.trans (h : Steps s s' f) (h' : Steps s' s'' g) : Steps s s'' (g ∘ f) where
  good := h'.good
  view T hT := h'.view _ (h.view T hT)
  count := h'.count.trans h.count
  lockDepth q := (h'.lockDepth q).trans (h.lockDepth q)
  held q k w hw := h'.held q k w (h.held q k w hw)

theorem Steps.locked (h : Steps s s' f) {p : Nat} (hp : Locked s p) : Locked s' p := by
  unfold Locked
  rw [h.count, h.lockDepth]
  exact hp

/-- Bookkeeping is a step that changes no flat map. -/
theorem Keeps.steps {owner owner' : Nat → Option Place} {c : Nat} (hg : Good s)
    (hinv : Inv s' owner' c) (ht : Tidy s' c) (hk : Keeps s s' owner owner') : Steps s s' id where
  good := by
    refine ⟨⟨owner', c, hinv, ht⟩, ?_, ?_⟩
    · intro q hq hl
      rw [hk.count] at hq
      rw [hk.lockDepth] at hl
      rw [(hk.current q).1]
      exact hg.current q hq hl
    · rw [hk.hint]
      exact hg.aligned
  view T hT := by
    intro q x hq hx
    rw [hk.count] at hq
    have hlt : x % 2 ^ 36 ≤ x := Nat.mod_le _ _
    have hwin : ¬ InWindow x := by
      rw [inWindow_iff]
      omega
    rw [hk.view q x hq hwin]
    exact hT q x hq hx
  count := hk.count
  lockDepth := hk.lockDepth
  held := hk.held

/-- `getWorkpage(3)` as a step. -/
theorem getWorkpage_steps (hg : Good s) {p w : Nat} (hp : Locked s p)
    (hs : s.getWorkpage p 3 = some (w, s')) :
    Steps s s' id ∧ (s'.pagers p).workPages 3 = some w := by
  obtain ⟨owner, c, hinv, ht⟩ := hg.tables
  have hacq := getWorkpage_spec hinv hs
  have ht' := hacq.tidy ht hp.1 (by decide) (by decide) hp.2
  exact ⟨hacq.keeps.steps hg hacq.inv ht', hacq.shown⟩

/-- **`mapStructures` as a step**: nothing changes in the flat maps, and work
page 3 shows the page table of `v`. -/
theorem mapStructuresAt_steps (hg : Good s) {p v : Nat} (hp : Locked s p)
    (hs : s.mapStructuresAt p v = some s') :
    Steps s s' id ∧ ∃ owner c w pt, Inv s' owner c ∧ Tidy s' c
      ∧ (s'.pagers p).workPages 3 = some w ∧ s'.workFrame w = pt
      ∧ descend next s'.mem (s'.pagers p).pml4 (path v) = some pt := by
  obtain ⟨owner, c, hinv, ht⟩ := hg.tables
  obtain ⟨owner', w, pt, hinv', hk, ht', hshow, hd⟩ :=
    mapStructures_spec hinv ht hp.1 hp.2 (hg.current p hp.1 hp.2) hs
  refine ⟨hk.steps hg hinv' ht', owner', c, w, pt, hinv', ht', hshow.1, ?_, hd⟩
  rw [hinv'.workFrame_eq]
  exact hshow.2

/-- The work page that a loop holds shows the page table. -/
theorem mapStructuresAt_held (hg : Good s) {p ptWork v : Nat} (hp : Locked s p)
    (hw : (s.pagers p).workPages 3 = some ptWork) (hs : s.mapStructuresAt p v = some s') :
    Steps s s' id ∧ ∃ owner c, Inv s' owner c ∧ Tidy s' c
      ∧ descend next s'.mem (s'.pagers p).pml4 (path v) = some (s'.workFrame ptWork) := by
  obtain ⟨hst, owner, c, w, pt, hinv, ht, hw', hframe, hd⟩ := mapStructuresAt_steps hg hp hs
  obtain rfl := Option.some.inj (hw'.symm.trans (hst.held p 3 ptWork hw))
  rw [← hframe] at hd
  exact ⟨hst, owner, c, hinv, ht, hd⟩

/-- Writing the entry of a page outside the window, as a step. -/
theorem setLeaf_steps (hg : Good s) {owner : Nat → Option Place} {c p v pt : Nat}
    (hinv : Inv s owner c) (ht : Tidy s c) (hp : p < s.pagerCount) (hv : v % 2 ^ 36 < windowPage)
    (hd : descend next s.mem (s.pagers p).pml4 (path v) = some pt) (e : PageStructuresEntry) :
    Steps s (s.setEntry pt (pte v) e) (fun T => flatSet T p (v % 2 ^ 36) (leaf e)) := by
  have hwin : ¬ InWindow v := by
    rw [inWindow_iff]
    omega
  have hne : pt ≠ c := by
    rintro rfl
    exact hinv.descend_ne_control hp hwin hd
  have hplace := hinv.place_of_descend hp hd
  have hctl : ∀ i, (s.setEntry pt (pte v) e).mem c i = s.mem c i := by
    intro i
    rw [setEntry_mem, if_neg (fun h => hne h.1.symm)]
  refine ⟨⟨⟨owner, c, hinv.setLeaf hplace rfl hne, ?_, ht.slots, ?_⟩, hg.current, hg.aligned⟩,
    ?_, rfl, fun _ => rfl, fun _ _ _ hw => hw⟩
  · intro q w hw
    rw [hctl]
    exact ht.roots q w hw
  · intro i hi hpres
    rw [hctl] at hpres
    exact ht.held i hi hpres
  · intro T hT q x hq hx
    rw [hinv.translate_setLeaf hp hq hd]
    have hx36 : x % 2 ^ 36 = x := Nat.mod_eq_of_lt (by unfold windowPage at hx; omega)
    unfold flatSet
    rw [hx36]
    split
    · rfl
    · exact hT q x hq hx

/-! ## §5. `map` and `unmap`. -/

theorem leaf_mapTo (e : PageStructuresEntry) (phys : Nat) (flags : PageFlags) :
    leaf (e.mapTo phys flags) = some (phys % 2 ^ 40, { flags with present := true }) := by
  simp [leaf, PageStructuresEntry.mapTo, PageStructuresEntry.flags]

theorem mapRound_steps (hg : Good s) {p ptWork v phys : Nat} {flags : PageFlags}
    (hp : Locked s p) (hw : (s.pagers p).workPages 3 = some ptWork)
    (hv : v % 2 ^ 36 < windowPage) (hs : s.mapRound p ptWork v phys flags = some s') :
    Steps s s' (fun T => flatSet T p (v % 2 ^ 36)
      (some (phys % 2 ^ 40, { flags with present := true }))) := by
  unfold mapRound at hs
  simp only [Option.bind_eq_bind, Option.bind_eq_some_iff, pure, Option.some.injEq] at hs
  obtain ⟨s₁, hs₁, rfl⟩ := hs
  obtain ⟨hst, owner, c, hinv, ht, hd⟩ := mapStructuresAt_held hg hp hw hs₁
  have hleaf := setLeaf_steps hst.good hinv ht (hst.locked hp).1 hv hd
    ((s₁.mem (s₁.workFrame ptWork) (pte v)).mapTo phys flags)
  rw [leaf_mapTo] at hleaf
  exact hst.trans hleaf

/-- The loop of `map`. -/
theorem mapLoop_steps (hg : Good s) {p ptWork v phys n : Nat} {flags : PageFlags}
    (hp : Locked s p) (hw : (s.pagers p).workPages 3 = some ptWork)
    (hn : v % 2 ^ 36 + n ≤ windowPage) (hphys : phys + n ≤ 2 ^ 40) :
    ∀ m s', m ≤ n →
      (List.range m).foldlM (fun s i => s.mapRound p ptWork (v + i) (phys + i) flags) s = some s' →
      Steps s s' (fun T => flatMap T p phys (v % 2 ^ 36) m flags) := by
  refine loop_invariant ?_ ?_
  · have hid : (fun T => flatMap T p phys (v % 2 ^ 36) 0 flags) = id := by
      funext T
      exact flatRange_zero T p _ _
    rw [hid]
    exact Steps.refl hg
  · intro m s₁ s₂ hm _ hst hs₂
    have hmod : (v + m) % 2 ^ 36 = v % 2 ^ 36 + m := by
      unfold windowPage at hn
      omega
    have hround := mapRound_steps hst.good (hst.locked hp) (hst.held p 3 ptWork hw)
      (by rw [hmod]; omega) hs₂
    rw [hmod, Nat.mod_eq_of_lt (show phys + m < 2 ^ 40 by omega)] at hround
    have hfun : (fun T => flatMap T p phys (v % 2 ^ 36) (m + 1) flags)
        = (fun T => flatSet T p (v % 2 ^ 36 + m)
            (some (phys + m, { flags with present := true })))
          ∘ (fun T => flatMap T p phys (v % 2 ^ 36) m flags) := by
      funext T
      exact flatRange_succ T p _ m _
    rw [hfun]
    exact hst.trans hround

/-- **`map` refines `flatMap`.** -/
theorem map_steps (hg : Good s) {p phys virt n : Nat} {flags : PageFlags} (hp : Locked s p)
    (hv : pageOf virt + n ≤ windowPage) (hphys : phys >>> 12 + n ≤ 2 ^ 40)
    (hs : s.map p phys virt n flags = some s') :
    Steps s s' (fun T => flatMap T p (phys >>> 12) (pageOf virt) n flags) := by
  unfold map at hs
  simp only [Option.bind_eq_bind, Option.bind_eq_some_iff] at hs
  obtain ⟨⟨w, s₁⟩, hget, hs⟩ := hs
  obtain ⟨hst, hw⟩ := getWorkpage_steps hg hp hget
  have hloop := mapLoop_steps hst.good (hst.locked hp) hw hv hphys n s' (Nat.le_refl n) hs
  exact hst.trans hloop

theorem unmapRound_steps (hg : Good s) {p ptWork v addr addr' : Nat} (hp : Locked s p)
    (hw : (s.pagers p).workPages 3 = some ptWork) (hv : v % 2 ^ 36 < windowPage)
    (hs : s.unmapRound p ptWork v addr = some (addr', s')) :
    Steps s s' (fun T => flatSet T p (v % 2 ^ 36) none) := by
  unfold unmapRound at hs
  simp only [Option.bind_eq_bind, Option.bind_eq_some_iff, pure, Option.some.injEq,
    Prod.mk.injEq] at hs
  obtain ⟨s₁, hs₁, -, rfl⟩ := hs
  obtain ⟨hst, owner, c, hinv, ht, hd⟩ := mapStructuresAt_held hg hp hw hs₁
  have hleaf := setLeaf_steps hst.good hinv ht (hst.locked hp).1 hv hd (.ofRaw 0)
  rw [leaf_zero] at hleaf
  exact hst.trans hleaf

/-- The loop of `unmap`, which hands on the last address as well. -/
theorem unmapLoop_steps (hg : Good s) {p ptWork v n : Nat} (hp : Locked s p)
    (hw : (s.pagers p).workPages 3 = some ptWork) (hn : v % 2 ^ 36 + n ≤ windowPage) :
    ∀ m (acc : Nat × Paging), m ≤ n →
      (List.range m).foldlM (fun (acc : Nat × Paging) i => acc.2.unmapRound p ptWork (v + i) acc.1)
        (0, s) = some acc →
      Steps s acc.2 (fun T => flatUnmap T p (v % 2 ^ 36) m) := by
  refine loop_invariant ?_ ?_
  · have hid : (fun T => flatUnmap T p (v % 2 ^ 36) 0) = id := by
      funext T
      exact flatRange_zero T p _ _
    rw [hid]
    exact Steps.refl hg
  · intro m ⟨addr₁, s₁⟩ ⟨addr₂, s₂⟩ hm _ hst hs₂
    have hmod : (v + m) % 2 ^ 36 = v % 2 ^ 36 + m := by
      unfold windowPage at hn
      omega
    have hround := unmapRound_steps hst.good (hst.locked hp) (hst.held p 3 ptWork hw)
      (by rw [hmod]; omega) hs₂
    rw [hmod] at hround
    have hfun : (fun T => flatUnmap T p (v % 2 ^ 36) (m + 1))
        = (fun T => flatSet T p (v % 2 ^ 36 + m) none)
          ∘ (fun T => flatUnmap T p (v % 2 ^ 36) m) := by
      funext T
      exact flatRange_succ T p _ m _
    rw [hfun]
    exact hst.trans hround

/-- What `unmap` compares with `KERNEL_START` is never as high. -/
theorem pageNumber_below_kernel {virt : Nat} (h64 : virt < 2 ^ 64) (hint : Nat) :
    ¬ (virt >>> 12 < hint ∧ virt >>> 12 ≥ kernelStart) := by
  intro ⟨_, hk⟩
  rw [Nat.shiftRight_eq_div_pow] at hk
  unfold kernelStart at hk
  omega

/-- **`unmap` refines `flatUnmap`.**  A page number is below `KERNEL_START`, so
the search hint never moves. -/
theorem unmap_steps (hg : Good s) {p virt n addr : Nat} (hp : Locked s p) (h64 : virt < 2 ^ 64)
    (hv : pageOf virt + n ≤ windowPage) (hs : s.unmap p virt n = some (addr, s')) :
    Steps s s' (fun T => flatUnmap T p (pageOf virt) n) := by
  unfold unmap at hs
  simp only [Option.bind_eq_bind, Option.bind_eq_some_iff, pure, Option.some.injEq,
    Prod.mk.injEq] at hs
  obtain ⟨⟨w, s₁⟩, hget, ⟨addr₂, s₂⟩, hloop, -, rfl⟩ := hs
  obtain ⟨hst, hw⟩ := getWorkpage_steps hg hp hget
  rw [if_neg (pageNumber_below_kernel h64 s₂.firstPotentialKernelPage)]
  exact hst.trans
    (unmapLoop_steps hst.good (hst.locked hp) hw hv n (addr₂, s₂) (Nat.le_refl n) hloop)

/-! ## §6. Lookups. -/

/-- **Lookups see the flat map and change nothing in it**, also when they
create page structures on the way. -/
theorem entryOf_steps (hg : Good s) {p virt : Nat} {e : PageStructuresEntry} (hp : Locked s p)
    (hs : s.entryOf p virt = some (e, s')) :
    Steps s s' id ∧ ∀ T, Views s T → pageOf virt < windowPage → leaf e = T p (pageOf virt) := by
  unfold entryOf at hs
  simp only [Option.bind_eq_bind, Option.bind_eq_some_iff, pure, Option.some.injEq,
    Prod.mk.injEq] at hs
  obtain ⟨s₁, hs₁, ⟨w', s₂⟩, hget, rfl, rfl⟩ := hs
  obtain ⟨hst, owner, c, w, pt, hinv, ht, hw₁, hframe, hd⟩ := mapStructuresAt_steps hg hp hs₁
  -- work page 3 is held already, so the second `getWorkpage` changes nothing
  unfold getWorkpage at hget
  rw [hw₁] at hget
  simp only [Option.some.injEq, Prod.mk.injEq] at hget
  obtain ⟨rfl, rfl⟩ := hget
  refine ⟨hst, fun T hT hv => ?_⟩
  have hview := hst.view T hT p (pageOf virt) (hst.locked hp).1 hv
  have hmod : translate s₁ p (pageOf virt) = translate s₁ p (virt >>> 12) :=
    translate_mod s₁ p (Nat.mod_mod _ _)
  rw [hmod] at hview
  unfold translate lookup at hview
  rw [hd, Option.bind_some] at hview
  rw [hframe]
  exact hview

/-- The flags `getFlags` returns for a page without translation. -/
def noFlags : PageFlags := ⟨false, false, false, false, false, false, false⟩

theorem flags_eq (e : PageStructuresEntry) : e.flags = ((leaf e).map Prod.snd).getD noFlags := by
  unfold leaf PageStructuresEntry.flags noFlags
  cases e.present <;> rfl

theorem flags_present (e : PageStructuresEntry) : e.flags.present = (leaf e).isSome := by
  unfold leaf PageStructuresEntry.flags
  cases e.present <;> rfl

/-- **`getFlags`**: the flags of the flat map, present where it is defined. -/
theorem getFlags_steps (hg : Good s) {p virt : Nat} {flags : PageFlags} (hp : Locked s p)
    (hs : s.getFlags p virt = some (flags, s')) :
    Steps s s' id ∧ ∀ T, Views s T → pageOf virt < windowPage →
      flags = ((T p (pageOf virt)).map Prod.snd).getD noFlags
        ∧ flags.present = (T p (pageOf virt)).isSome := by
  unfold getFlags at hs
  rw [Option.map_eq_some_iff] at hs
  obtain ⟨⟨e, s₁⟩, he, hs⟩ := hs
  simp only [Prod.mk.injEq] at hs
  obtain ⟨rfl, rfl⟩ := hs
  obtain ⟨hst, hT⟩ := entryOf_steps hg hp he
  refine ⟨hst, fun T hV hv => ?_⟩
  rw [← hT T hV hv]
  exact ⟨flags_eq e, flags_present e⟩

/-- **`getPhysicalAddress`**: the frame of the flat map and the page offset. -/
theorem getPhysicalAddress_steps (hg : Good s) {p virt addr : Nat} (hp : Locked s p)
    (hs : s.getPhysicalAddress p virt = some (addr, s')) :
    Steps s s' id ∧ ∀ T, Views s T → pageOf virt < windowPage →
      ∀ f flags, T p (pageOf virt) = some (f, flags) → addr = f * 2 ^ 12 + virt % 2 ^ 12 := by
  unfold getPhysicalAddress at hs
  rw [Option.map_eq_some_iff] at hs
  obtain ⟨⟨e, s₁⟩, he, hs⟩ := hs
  simp only [Prod.mk.injEq] at hs
  obtain ⟨rfl, rfl⟩ := hs
  obtain ⟨hst, hT⟩ := entryOf_steps hg hp he
  refine ⟨hst, fun T hV hv f flags hf => ?_⟩
  have haddr : e.address = f := by
    rw [← hT T hV hv] at hf
    unfold leaf at hf
    split at hf
    · simp only [Option.some.injEq, Prod.mk.injEq] at hf
      exact hf.1
    · exact absurd hf (by simp)
  have hoff : virt &&& 0xFFF = virt % 2 ^ 12 := by
    rw [show 0xFFF = 2 ^ 12 - 1 from rfl, Nat.and_two_pow_sub_one_eq_mod]
  rw [haddr, hoff, ← Nat.shiftLeft_add_eq_or_of_lt (Nat.mod_lt _ (by decide)), Nat.shiftLeft_eq]

/-! ## §7. `kmap`. -/

theorem pageOf_eq (virt : Nat) : pageOf virt = virt / 2 ^ 12 % 2 ^ 36 := by
  unfold pageOf
  rw [Nat.shiftRight_eq_div_pow]

/-- The pages `getFreeRange` probes from `addr` on. -/
theorem pageOf_probe (addr i : Nat) :
    pageOf ((addr + i * 0x1000) % 2 ^ 64) = (pageOf addr + i) % 2 ^ 36 := by
  rw [pageOf_eq, pageOf_eq]
  omega

/-- What the inner loop of `getFreeRange` found, seen on the flat map. -/
def ProbeResult (T : Flat) (p addr offset count : Nat) : Option Nat → Prop
  | none => ∀ i, i < count → pageOf ((addr + (offset + i * 0x1000)) % 2 ^ 64) < windowPage →
      T p (pageOf ((addr + (offset + i * 0x1000)) % 2 ^ 64)) = none
  | some o => ∃ i, i < count ∧ o = offset + i * 0x1000 ∧
      (pageOf ((addr + o) % 2 ^ 64) < windowPage →
        (T p (pageOf ((addr + o) % 2 ^ 64))).isSome = true)

theorem probeRange_steps {p addr : Nat} {hit : Option Nat} :
    ∀ count offset s, Good s → Locked s p → probeRange p addr count offset s = some (hit, s') →
      Steps s s' id ∧ ∀ T, Views s T → ProbeResult T p addr offset count hit := by
  intro count
  induction count with
  | zero =>
      intro offset s hg _ hs
      simp only [probeRange, Option.some.injEq, Prod.mk.injEq] at hs
      obtain ⟨rfl, rfl⟩ := hs
      exact ⟨Steps.refl hg, fun T _ i hi => absurd hi (Nat.not_lt_zero i)⟩
  | succ count ih =>
      intro offset s hg hp hs
      simp only [probeRange, Option.bind_eq_bind, Option.bind_eq_some_iff, Prod.exists] at hs
      obtain ⟨flags, s₁, hflags, hs⟩ := hs
      obtain ⟨hst, hT⟩ := getFlags_steps hg hp hflags
      split at hs
      · rename_i hpres
        simp only [pure, Option.some.injEq, Prod.mk.injEq] at hs
        obtain ⟨rfl, rfl⟩ := hs
        refine ⟨hst, fun T hV => ⟨0, Nat.succ_pos _, by omega, fun hv => ?_⟩⟩
        rw [← (hT T hV hv).2]
        exact hpres
      · rename_i habs
        obtain ⟨hst', hres⟩ := ih (offset + 0x1000) s₁ hst.good (hst.locked hp) hs
        refine ⟨hst.trans hst', fun T hV => ?_⟩
        have hrest := hres T (hst.view T hV)
        cases hit with
        | none =>
            intro i hi hv
            cases i with
            | zero =>
                rw [show addr + (offset + 0 * 0x1000) = addr + offset by omega] at hv ⊢
                have hnone := (hT T hV hv).2
                rw [Bool.not_eq_true] at habs
                rw [habs] at hnone
                exact Option.isNone_iff_eq_none.mp (by simpa using hnone.symm)
            | succ i =>
                have hoff : offset + (i + 1) * 0x1000 = offset + 0x1000 + i * 0x1000 := by omega
                rw [hoff] at hv ⊢
                exact hrest i (by omega) hv
        | some o =>
            obtain ⟨i, hi, ho, hmapped⟩ := hrest
            exact ⟨i + 1, by omega, by omega, hmapped⟩

/-- `s'` is a good state with the translations of `s`. -/
structure Quiet (s s' : Paging) : Prop where
  good : Good s'
  view : ∀ T, Views s T → Views s' T
  count : s'.pagerCount = s.pagerCount

/-- The tables do not depend on locks and hints. -/
theorem Good.setPagers (hg : Good s) {pagers : Nat → Pager} {hint : Nat}
    (hpml4 : ∀ q, (pagers q).pml4 = (s.pagers q).pml4)
    (hwork : ∀ q, (pagers q).workPages = (s.pagers q).workPages)
    (hlock : ∀ q, 0 < (s.pagers q).lockDepth →
      0 < (pagers q).lockDepth ∨ ∀ k, (pagers q).workPages k = none)
    (hcur : ∀ q, q < s.pagerCount → 0 < (pagers q).lockDepth → (pagers q).currentPml4e = -1)
    (hhint : hint % 2 ^ 12 = 0) :
    Quiet s { s with pagers := pagers, firstPotentialKernelPage := hint } := by
  obtain ⟨owner, c, hinv, ht⟩ := hg.tables
  have hinv' : Inv { s with pagers := pagers } owner c := by
    refine hinv.setPagers hpml4 ?_ ?_
    · intro q k w hw
      rw [hwork] at hw
      exact hinv.work q k w hw
    · intro q k q' k' w hw hw'
      rw [hwork] at hw hw'
      exact hinv.workInj q k q' k' w hw hw'
  refine ⟨⟨⟨owner, c, ?_, ?_, ?_, ?_⟩, hcur, hhint⟩, ?_, rfl⟩
  · exact ⟨hinv'.labelling, hinv'.owned, hinv'.pd0, hinv'.pd1, hinv'.control, hinv'.window,
      hinv'.self, hinv'.root, hinv'.rootTop, hinv'.top, hinv'.work, hinv'.workInj⟩
  · intro q w hw
    show (s.mem c w).address = (pagers q).pml4
    rw [hpml4]
    exact ht.roots q w (by rw [← hwork]; exact hw)
  · intro q k w hw
    obtain ⟨hq, hk, hl⟩ := ht.slots q k w (by rw [← hwork]; exact hw)
    rcases hlock q hl with hl' | hnone
    · exact ⟨hq, hk, hl'⟩
    · exact absurd ((hnone k).symm.trans hw) (by simp)
  · intro i hi hpres
    obtain ⟨q, k, hqk⟩ := ht.held i hi hpres
    exact ⟨q, k, by show (pagers q).workPages k = some i; rw [hwork]; exact hqk⟩
  · intro T hT q x hq hx
    have hsame : translate { s with pagers := pagers, firstPotentialKernelPage := hint } q x
        = translate s q x := by
      show lookup next leaf s.mem (pagers q).pml4 (path x) (pte x) = translate s q x
      rw [hpml4]
      rfl
    rw [hsame]
    exact hT q x hq hx

/-- Moving the search hints is invisible. -/
theorem bumpHints_steps (hg : Good s) (p : Nat) {addr offset : Nat}
    (haddr : addr % 2 ^ 12 = 0) (hoff : offset % 2 ^ 12 = 0) :
    Steps s (s.bumpHints p addr offset) id := by
  have hpager : ∀ q, ((s.bumpHints p addr offset).pagers q).pml4 = (s.pagers q).pml4
      ∧ ((s.bumpHints p addr offset).pagers q).workPages = (s.pagers q).workPages
      ∧ ((s.bumpHints p addr offset).pagers q).lockDepth = (s.pagers q).lockDepth
      ∧ ((s.bumpHints p addr offset).pagers q).currentPml4e = (s.pagers q).currentPml4e := by
    intro q
    simp only [bumpHints]
    split
    · rename_i hq
      rw [hq.1]
      exact ⟨rfl, rfl, rfl, rfl⟩
    · exact ⟨rfl, rfl, rfl, rfl⟩
  have hquiet : Quiet s (s.bumpHints p addr offset) := by
    refine hg.setPagers (fun q => (hpager q).1) (fun q => (hpager q).2.1) ?_ ?_ ?_
    · intro q hq
      exact Or.inl (Nat.lt_of_lt_of_eq hq (hpager q).2.2.1.symm)
    · intro q hq hl
      have hl' := Nat.lt_of_lt_of_eq hl (hpager q).2.2.1
      exact (hpager q).2.2.2.trans (hg.current q hq hl')
    · split
      · rw [show 1 <<< 12 = 2 ^ 12 from rfl]
        omega
      · exact hg.aligned
  refine ⟨hquiet.good, hquiet.view, hquiet.count, fun q => (hpager q).2.2.1, ?_⟩
  intro q k w hw
  rw [(hpager q).2.1]
  exact hw

/-- No range that fits in the address space overflows `length << 12`. -/
theorem getFreeRange_eq (s : Paging) (p start : Nat) {length : Nat} (hlen : length < 2 ^ 52) :
    s.getFreeRange p start length
      = getFreeRangeLoop p length ((2 ^ 64 - start) / 0x1000 + 2) start s := by
  unfold getFreeRange
  rw [Nat.mod_eq_of_lt hlen]

/-- **`getFreeRange`** returns an aligned address whose pages are free. -/
theorem getFreeRangeLoop_steps {p length start : Nat} :
    ∀ fuel addr s, Good s → Locked s p → addr % 2 ^ 12 = 0 →
      getFreeRangeLoop p length fuel addr s = some (start, s') →
      Steps s s' id ∧ start % 2 ^ 12 = 0 ∧
        (start ≠ 0 → ∀ T, Views s T → ProbeResult T p start 0 length none) := by
  intro fuel
  induction fuel with
  | zero => intro addr s _ _ _ hs; exact absurd hs (by simp [getFreeRangeLoop])
  | succ fuel ih =>
      intro addr s hg hp haddr hs
      simp only [getFreeRangeLoop] at hs
      split at hs
      · simp only [Option.some.injEq, Prod.mk.injEq] at hs
        obtain ⟨rfl, rfl⟩ := hs
        exact ⟨Steps.refl hg, rfl, fun h0 => absurd rfl h0⟩
      · simp only [Option.bind_eq_bind, Option.bind_eq_some_iff, Prod.exists] at hs
        obtain ⟨hit, s₁, hprobe, hs⟩ := hs
        obtain ⟨hst, hres⟩ := probeRange_steps length 0 s hg hp hprobe
        cases hit with
        | none =>
            simp only [pure, Option.some.injEq, Prod.mk.injEq] at hs
            obtain ⟨rfl, rfl⟩ := hs
            exact ⟨hst, haddr, fun _ T hT => hres T hT⟩
        | some offset =>
            have hoff : offset % 2 ^ 12 = 0 := by
              obtain ⟨i, _, ho, _⟩ := hres (translate s) (fun _ _ _ _ => rfl)
              omega
            have hbump := bumpHints_steps hst.good p haddr hoff
            have hst' := hst.trans hbump
            obtain ⟨hst'', hstart, hfree⟩ := ih _ _ hst'.good (hst'.locked hp) (by omega) hs
            exact ⟨hst'.trans hst'', hstart, fun h0 T hT => hfree h0 T (hst'.view T hT)⟩

/-- **`kmap`** maps a free range; the address it returns has the page offset
of `phys`. -/
theorem kmap_steps (hg : Good s) {p phys n r : Nat} {flags : PageFlags} (hp : Locked s p)
    (hphys : phys >>> 12 + n ≤ 2 ^ 40) (hs : s.kmap p phys n flags = some (r, s'))
    (hr0 : 2 ^ 12 ≤ r) (hr : pageOf r + n ≤ windowPage) :
    Steps s s' (fun T => flatMap T p (phys >>> 12) (pageOf r) n flags)
      ∧ r % 2 ^ 12 = phys % 2 ^ 12
      ∧ ∀ T, Views s T → ∀ i, i < n → T p (pageOf r + i) = none := by
  unfold kmap at hs
  simp only [Option.bind_eq_bind, Option.bind_eq_some_iff, Prod.exists, pure, Option.some.injEq,
    Prod.mk.injEq] at hs
  obtain ⟨start, s₁, hfind, s₂, hmap, rfl, rfl⟩ := hs
  rw [getFreeRange_eq _ _ _ (by unfold windowPage at hr; omega)] at hfind
  obtain ⟨hst, hstart, hfree⟩ := getFreeRangeLoop_steps _ _ s hg hp hg.aligned hfind
  have hoff : phys &&& 0xFFF = phys % 2 ^ 12 := by
    rw [show 0xFFF = 2 ^ 12 - 1 from rfl, Nat.and_two_pow_sub_one_eq_mod]
  rw [hoff] at hr0 hr ⊢
  have hpage : pageOf (start + phys % 2 ^ 12) = pageOf start := by
    rw [pageOf_eq, pageOf_eq]
    omega
  rw [hpage] at hr ⊢
  refine ⟨hst.trans (map_steps hst.good (hst.locked hp) hr hphys hmap), by omega, ?_⟩
  intro T hT i hi
  have hprobe := hfree (by omega) T hT i hi
  rw [Nat.zero_add, pageOf_probe, Nat.mod_eq_of_lt (by unfold windowPage at hr; omega)] at hprobe
  exact hprobe (by omega)

end Steps

end Paging

end MierOS.Memory.Virtual
