/-
  MierOS.Memory.PagerLife
  **LOCKING, CREATING AND BOOTING PAGERS KEEP THE TABLES IN ORDER.**

  `lock` and `unlock` change no translation; `unlock` returns every work page.
  `Pager::Pager()` adds a pager whose own pages are all unmapped and whose
  kernel pages are those of the others.  `Pager::init` builds the first good
  state from nothing but a memory and a supply of unused frames.
-/
import MierOS.Memory.FlatMap

namespace MierOS.Memory.Virtual

open Lib.TableTree

namespace Paging

variable {s s' s'' : Paging} {owner : Nat → Option Place} {c : Nat}

theorem Quiet.refl (hg : Good s) : Quiet s s := ⟨hg, fun _ hT => hT, rfl⟩

theorem Quiet.trans (h : Quiet s s') (h' : Quiet s' s'') : Quiet s s'' :=
  ⟨h'.good, fun T hT => h'.view T (h.view T hT), h'.count.trans h.count⟩

/-! ## §1. `lock` and `unlock`. -/

/-- **`lock` changes no translation.** -/
theorem lock_quiet (hg : Good s) (p : Nat) : Quiet s (s.lock p) := by
  refine hg.setPagers ?_ ?_ ?_ ?_ hg.aligned
  · intro q
    split
    · rename_i hq; rw [hq]
    · rfl
  · intro q
    split
    · rename_i hq; rw [hq]
    · rfl
  · intro q hq
    left
    split
    · exact Nat.succ_pos _
    · exact hq
  · intro q hq hl
    split at hl
    · rename_i hqp
      rw [if_pos hqp]
    · rename_i hqp
      rw [if_neg hqp]
      exact hg.current q hq hl

/-- `work_pages[slot] = -1`. -/
def dropWork (s : Paging) (p slot : Nat) : Paging :=
  s.setPager p { s.pagers p with
    workPages := fun k => if k = slot then none else (s.pagers p).workPages k }

theorem dropWork_workPages (s : Paging) (p slot q k : Nat) :
    ((s.dropWork p slot).pagers q).workPages k
      = if q = p ∧ k = slot then none else (s.pagers q).workPages k := by
  unfold dropWork setPager
  by_cases hq : q = p
  · subst hq
    by_cases hk : k = slot <;> simp [hk]
  · simp [hq]

/-- `dropWork` touches work pages only. -/
theorem dropWork_pager (s : Paging) (p slot q : Nat) :
    ((s.dropWork p slot).pagers q).pml4 = (s.pagers q).pml4
      ∧ ((s.dropWork p slot).pagers q).currentPml4e = (s.pagers q).currentPml4e
      ∧ ((s.dropWork p slot).pagers q).lockDepth = (s.pagers q).lockDepth := by
  unfold dropWork setPager
  by_cases hq : q = p
  · subst hq; simp
  · simp [hq]

/-- Releasing a work page: forget it, then unmark its slot. -/
theorem releaseSlot_eq {p slot w : Nat} (hw : (s.pagers p).workPages slot = some w) :
    s.releaseSlot p slot = (s.dropWork p slot).setControl w
      { s.mem s.controlFrame w with present := false } := by
  unfold releaseSlot
  rw [hw]
  rfl

theorem releaseSlot_none {p slot : Nat} (hw : (s.pagers p).workPages slot = none) :
    s.releaseSlot p slot = s := by
  unfold releaseSlot
  rw [hw]

/-- A slot given back is a slot without a work page. -/
theorem releaseSlot_workPages (s : Paging) (p slot q k : Nat) :
    ((s.releaseSlot p slot).pagers q).workPages k
      = if q = p ∧ k = slot then none else (s.pagers q).workPages k := by
  cases hw : (s.pagers p).workPages slot with
  | none =>
      rw [releaseSlot_none hw]
      split
      · rename_i hqk; rw [hqk.1, hqk.2, hw]
      · rfl
  | some w =>
      rw [releaseSlot_eq hw]
      exact dropWork_workPages s p slot q k

theorem releaseSlot_lockDepth (s : Paging) (p slot q : Nat) :
    ((s.releaseSlot p slot).pagers q).lockDepth = (s.pagers q).lockDepth := by
  cases hw : (s.pagers p).workPages slot with
  | none => rw [releaseSlot_none hw]
  | some w =>
      rw [releaseSlot_eq hw]
      exact (dropWork_pager s p slot q).2.2

/-- A work page that is left after `dropWork` was there before, at another slot. -/
theorem workPages_of_dropWork {p slot q k x : Nat}
    (hx : ((s.dropWork p slot).pagers q).workPages k = some x) :
    ¬ (q = p ∧ k = slot) ∧ (s.pagers q).workPages k = some x := by
  rw [dropWork_workPages] at hx
  split at hx
  · exact absurd hx (by simp)
  · rename_i hqk
    exact ⟨hqk, hx⟩

theorem Inv.dropWork {owner : Nat → Option Place} {c : Nat} (h : Inv s owner c) (p slot : Nat) :
    Inv (s.dropWork p slot) owner c := by
  refine h.setPagers (fun q => (dropWork_pager s p slot q).1) ?_ ?_
  · intro q k x hx
    exact h.work q k x (workPages_of_dropWork hx).2
  · intro q k q' k' x hx hx'
    exact h.workInj q k q' k' x (workPages_of_dropWork hx).2 (workPages_of_dropWork hx').2

/-- The work page that was dropped is in no slot. -/
theorem Inv.dropWork_ne {owner : Nat → Option Place} {c p slot w : Nat} (h : Inv s owner c)
    (hw : (s.pagers p).workPages slot = some w) (q k : Nat) :
    ((s.dropWork p slot).pagers q).workPages k ≠ some w := by
  intro hx
  obtain ⟨hne, hx⟩ := workPages_of_dropWork hx
  exact hne (h.workInj q k p slot w hx hw)

theorem releaseSlot_quiet (hg : Good s) (p slot : Nat) : Quiet s (s.releaseSlot p slot) := by
  cases hw : (s.pagers p).workPages slot with
  | none =>
      rw [releaseSlot_none hw]
      exact Quiet.refl hg
  | some w =>
      obtain ⟨owner, c, hinv, ht⟩ := hg.tables
      have hdrop := hinv.dropWork p slot
      have hfree := hinv.dropWork_ne hw
      rw [releaseSlot_eq hw]
      obtain ⟨hinv', hk⟩ := hdrop.setControl (hinv.work p slot w hw).1
        (e := { s.mem s.controlFrame w with present := false }) (Or.inr hfree)
      -- the other control entries are untouched
      have hctl : ∀ i, i ≠ w → (((s.dropWork p slot).setControl w
          { s.mem s.controlFrame w with present := false }).mem c i) = s.mem c i := by
        intro i hi
        unfold Paging.setControl
        rw [setEntry_mem, if_neg (fun h => hi h.2)]
        rfl
      refine ⟨⟨⟨owner, c, hinv', ?_, ?_, ?_⟩, ?_, hg.aligned⟩, ?_, rfl⟩
      · intro q x hx
        have hx' := workPages_of_dropWork hx
        have hxw : x ≠ w := by rintro rfl; exact hfree q 0 hx
        rw [hctl x hxw]
        refine (ht.roots q x hx'.2).trans ?_
        exact (dropWork_pager s p slot q).1.symm
      · intro q k x hx
        obtain ⟨hq, hk4, hl⟩ := ht.slots q k x (workPages_of_dropWork hx).2
        exact ⟨hq, hk4, Nat.lt_of_lt_of_eq hl (dropWork_pager s p slot q).2.2.symm⟩
      · intro i hi hpres
        have hiw : i ≠ w := by
          rintro rfl
          unfold Paging.setControl at hpres
          rw [setEntry_mem, hdrop.controlFrame_eq, if_pos ⟨rfl, rfl⟩] at hpres
          exact absurd hpres (by simp)
        rw [hctl i hiw] at hpres
        obtain ⟨q, k, hqk⟩ := ht.held i hi hpres
        refine ⟨q, k, (dropWork_workPages s p slot q k).trans ?_⟩
        rw [if_neg, hqk]
        rintro ⟨rfl, rfl⟩
        rw [hw] at hqk
        injection hqk with hqk
        exact hiw hqk.symm
      · intro q hq hl
        have hl' := Nat.lt_of_lt_of_eq hl (dropWork_pager s p slot q).2.2
        exact (dropWork_pager s p slot q).2.1.trans (hg.current q hq hl')
      · intro T hT q x hq hx
        have hwin : ¬ InWindow x := by
          rw [inWindow_iff]
          have := Nat.mod_le x (2 ^ 36)
          omega
        rw [hk.view q x hq hwin]
        show lookup next leaf s.mem ((s.dropWork p slot).pagers q).pml4 (path x) (pte x) = T q x
        rw [(dropWork_pager s p slot q).1]
        exact hT q x hq hx

/-- The loop of `unlock` over the first `n` slots. -/
theorem releaseSlots_quiet (hg : Good s) (p : Nat) :
    ∀ n, Quiet s ((List.range n).foldl (fun s i => s.releaseSlot p i) s)
      ∧ (∀ q, (((List.range n).foldl (fun s i => s.releaseSlot p i) s).pagers q).lockDepth
          = (s.pagers q).lockDepth)
      ∧ ∀ k, k < n →
        (((List.range n).foldl (fun s i => s.releaseSlot p i) s).pagers p).workPages k = none := by
  intro n
  induction n with
  | zero => exact ⟨Quiet.refl hg, fun _ => rfl, fun k hk => absurd hk (Nat.not_lt_zero k)⟩
  | succ n ih =>
      obtain ⟨hq, hl, hnone⟩ := ih
      rw [List.range_succ, List.foldl_append, List.foldl_cons, List.foldl_nil]
      refine ⟨hq.trans (releaseSlot_quiet hq.good p n), ?_, ?_⟩
      · intro q
        rw [releaseSlot_lockDepth, hl]
      · intro k hk
        rw [releaseSlot_workPages]
        split
        · rfl
        · rename_i hkn
          exact hnone k (by
            have : k ≠ n := fun h => hkn ⟨rfl, h⟩
            omega)

/-- **`unlock` changes no translation** and returns every work page. -/
theorem unlock_quiet (hg : Good s) (p : Nat) : Quiet s (s.unlock p) := by
  obtain ⟨hq, _, hnone⟩ := releaseSlots_quiet hg p 4
  have hgood := hq.good
  obtain ⟨owner, c, hinv, ht⟩ := hgood.tables
  have hall : ∀ k, (((List.range 4).foldl (fun s i => s.releaseSlot p i) s).pagers p).workPages k
      = none := by
    intro k
    cases hw : (((List.range 4).foldl (fun s i => s.releaseSlot p i) s).pagers p).workPages k with
    | none => rfl
    | some w =>
        rw [hnone k (ht.slots p k w hw).2.1] at hw
        exact absurd hw (by simp)
  refine hq.trans (hgood.setPagers ?_ ?_ ?_ ?_ hgood.aligned)
  · intro q
    split
    · rename_i hqp; rw [hqp]
    · rfl
  · intro q
    split
    · rename_i hqp; rw [hqp]
    · rfl
  · intro q hl
    split
    · exact Or.inr hall
    · exact Or.inl hl
  · intro q hq hl
    split at hl
    · rename_i hqp
      rw [if_pos hqp]
      exact hgood.current p (hqp ▸ hq) (by simp only at hl; omega)
    · rename_i hqp
      rw [if_neg hqp]
      exact hgood.current q hq hl

/-! ## §2. Scratch work in unplaced frames. -/

/-- `t` is reached from `s` by writing frames without a place and control slots
in `W`, which nobody holds. -/
structure Scratch (s t : Paging) (owner : Nat → Option Place) (c : Nat) (W : Nat → Prop) :
    Prop where
  inv : Inv t owner c
  pagers : t.pagers = s.pagers
  count : t.pagerCount = s.pagerCount
  hint : t.firstPotentialKernelPage = s.firstPotentialKernelPage
  pd0 : t.kernelPd0 = s.kernelPd0
  pd1 : t.kernelPd1 = s.kernelPd1
  used : ∀ f, s.used f = true → t.used f = true
  slots : ∀ i, ¬ W i → t.mem c i = s.mem c i
  view : ∀ q v, q < s.pagerCount → ¬ InWindow v → translate t q v = translate s q v

section Scratch

variable {t t' : Paging} {W : Nat → Prop}

theorem Scratch.refl (h : Inv s owner c) : Scratch s s owner c W :=
  ⟨h, rfl, rfl, rfl, rfl, rfl, fun _ hf => hf, fun _ _ => rfl, fun _ _ _ _ => rfl⟩

theorem setControl_mem (h : Inv t owner c) (w x i : Nat) (e : PageStructuresEntry) :
    (t.setControl w e).mem x i = if x = c ∧ i = w then e else t.mem x i := by
  unfold Paging.setControl
  rw [setEntry_mem, h.controlFrame_eq]

theorem Scratch.setControl (h : Scratch s t owner c W) {w : Nat} (hw : w < 511)
    (hfree : ∀ q k, (s.pagers q).workPages k ≠ some w) (hW : W w) (e : PageStructuresEntry) :
    Scratch s (t.setControl w e) owner c W := by
  obtain ⟨hinv, hk⟩ := h.inv.setControl hw (e := e) (Or.inr (by rw [h.pagers]; exact hfree))
  refine ⟨hinv, h.pagers, h.count, h.hint, h.pd0, h.pd1, h.used, ?_, ?_⟩
  · intro i hi
    rw [setControl_mem h.inv, if_neg]
    · exact h.slots i hi
    · rintro ⟨_, rfl⟩
      exact hi hW
  · intro q v hq hv
    rw [hk.view q v (by rw [h.count]; exact hq) hv]
    exact h.view q v hq hv

/-- Writing a frame that has no place. -/
theorem Scratch.setFrame (h : Scratch s t owner c W) {f : Nat} (hf : owner f = none)
    (mem : Nat → Nat → PageStructuresEntry) (hmem : ∀ x i, x ≠ f → mem x i = t.mem x i) :
    Scratch s { t with mem := mem } owner c W := by
  have hplaced : ∀ x l i, owner x = some l → mem x i = t.mem x i := by
    intro x l i hx
    exact hmem x i (placed_ne hx hf)
  have hinv := h.inv
  refine ⟨⟨⟨?_⟩, hinv.owned, hinv.pd0, hinv.pd1, hinv.control, ?_, ?_, hinv.root, ?_, ?_, ?_,
    hinv.workInj⟩, h.pagers, h.count, h.hint, h.pd0, h.pd1, h.used, ?_, ?_⟩
  · intro x l i y hx hl hn
    replace hn : next (mem x i) = some y := hn
    rw [hplaced x l i hx] at hn
    exact hinv.labelling.edge x l i y hx hl hn
  · show next (mem t.kernelPd1 511) = some c
    rw [hplaced _ _ _ hinv.pd1]
    exact hinv.window
  · show (mem c 511).address = c
    rw [hplaced _ _ _ hinv.control]
    exact hinv.self
  · intro x y hx
    show ∃ d, next (mem x 511) = some d
    rw [hplaced x _ _ hx]
    exact hinv.rootTop x y hx
  · intro x y hx
    show next (mem x 510) = _ ∧ next (mem x 511) = _
    rw [hplaced x _ _ hx, hplaced x _ _ hx]
    exact hinv.top x y hx
  · intro q k w hw
    show w < 511 ∧ (mem c w).present = true
    rw [hplaced _ _ _ hinv.control]
    exact hinv.work q k w hw
  · intro i hi
    show mem c i = s.mem c i
    rw [hplaced _ _ _ hinv.control]
    exact h.slots i hi
  · intro q v hq hv
    -- the tables a translation goes through all have a place, so none of them is `f`
    rw [← h.view q v hq hv]
    have hroot := hinv.root q (by rw [h.count]; exact hq)
    have hd : descend next mem (t.pagers q).pml4 (path v)
        = descend next t.mem (t.pagers q).pml4 (path v) :=
      descend_of_agree depth_child hinv.labelling (fun x l i hx _ => hplaced x l i hx) (path v) _ _
        hroot (Nat.le_refl 3)
    show lookup next leaf mem (t.pagers q).pml4 (path v) (pte v) = translate t q v
    unfold translate lookup
    rw [hd]
    cases hd' : descend next t.mem (t.pagers q).pml4 (path v) with
    | none => rfl
    | some g =>
        have hown := hinv.place_of_descend (by rw [h.count]; exact hq) hd'
        rw [Option.bind_some, Option.bind_some, hplaced g _ _ hown]

theorem Scratch.palloc (h : Scratch s t owner c W) {f : Nat} (hs : t.palloc = some (f, t')) :
    Scratch s t' owner c W ∧ t.used f = false ∧ f < 2 ^ 40 ∧ owner f = none ∧ t'.mem = t.mem
      ∧ t'.used f = true := by
  obtain ⟨hf, hf40, rfl⟩ := palloc_cases hs
  have hinv := h.inv
  refine ⟨⟨⟨hinv.labelling, ?_, hinv.pd0, hinv.pd1, hinv.control, hinv.window, hinv.self,
    hinv.root, hinv.rootTop, hinv.top, hinv.work, hinv.workInj⟩, h.pagers, h.count, h.hint, h.pd0,
    h.pd1, ?_, h.slots, h.view⟩, hf, hf40, hinv.unused_unplaced hf, rfl, if_pos rfl⟩
  · intro x l hx
    obtain ⟨hu, h40⟩ := hinv.owned x l hx
    refine ⟨?_, h40⟩
    show (if x = f then true else t.used x) = true
    split
    · rfl
    · exact hu
  · intro x hx
    show (if x = f then true else t.used x) = true
    split
    · rfl
    · exact h.used x hx

theorem Scratch.aquire (h : Scratch s t owner c W) {w : Nat}
    (hs : t.aquireWorkpageIndex = some (w, t')) (hW : W w) :
    Scratch s t' owner c W ∧ w < 511 ∧ (∀ q k, (s.pagers q).workPages k ≠ some w)
      ∧ (t.mem c w).present = false ∧ t'.used = t.used
      ∧ ∀ x i, ¬ (x = c ∧ i = w) → t'.mem x i = t.mem x i := by
  obtain ⟨hlt, hfree, rfl⟩ := aquireWorkpageIndex_spec h.inv hs
  rw [h.pagers] at hfree
  refine ⟨h.setControl hlt hfree hW _, hlt, hfree, ?_, rfl, ?_⟩
  · unfold aquireWorkpageIndex at hs
    rw [h.inv.controlFrame_eq] at hs
    split at hs
    · exact absurd hs (by simp)
    · rename_i i hfind
      simp only [Option.some.injEq, Prod.mk.injEq] at hs
      rw [← hs.1]
      have hfound := List.find?_some hfind
      simpa using hfound
  · intro x i hx
    rw [setControl_mem h.inv, if_neg hx]

theorem Scratch.setEntry (h : Scratch s t owner c W) {f : Nat} (hf : owner f = none) (i : Nat)
    (e : PageStructuresEntry) : Scratch s (t.setEntry f i e) owner c W :=
  h.setFrame hf _ (fun x j hx => by rw [if_neg (fun hc => hx hc.1)])

/-- `releaseWorkpageIndex` of a slot nobody holds. -/
theorem Scratch.release (h : Scratch s t owner c W) {w : Nat} (hw : w < 511)
    (hfree : ∀ q k, (s.pagers q).workPages k ≠ some w) (hW : W w) :
    Scratch s (t.releaseWorkpageIndex w) owner c W
      ∧ (∀ x i, x ≠ c → (t.releaseWorkpageIndex w).mem x i = t.mem x i)
      ∧ ∀ i, ((t.releaseWorkpageIndex w).mem c i).present
          = if i = w then false else (t.mem c i).present := by
  refine ⟨h.setControl hw hfree hW _, ?_, ?_⟩
  · intro x i hx
    unfold releaseWorkpageIndex
    rw [setControl_mem h.inv, if_neg (fun hc => hx hc.1)]
  · intro i
    unfold releaseWorkpageIndex
    rw [setControl_mem h.inv]
    by_cases hi : i = w
    · rw [if_pos ⟨rfl, hi⟩, if_pos hi]
    · rw [if_neg (fun hc => hi hc.2), if_neg hi]

/-- The entry `Pager::Pager()` writes for a frame. -/
def plainEntry (f : Nat) : PageStructuresEntry := .ofRaw (f <<< 12 ||| 0x03)

theorem plainEntry_address {f : Nat} (hf : f < 2 ^ 40) : (plainEntry f).address = f :=
  ofRaw_or_address hf (by decide)

theorem plainEntry_present (f : Nat) : (plainEntry f).present = true := ofRaw_or_present (by decide)

theorem next_plainEntry {f : Nat} (hf : f < 2 ^ 40) : next (plainEntry f) = some f :=
  next_ofRaw hf (by decide) (by decide)

theorem Scratch.newStructure (h : Scratch s t owner c W) {w f : Nat} (hw : w < 511)
    (hfree : ∀ q k, (s.pagers q).workPages k ≠ some w) (hW : W w) (hf : owner f = none)
    (hf40 : f < 2 ^ 40) :
    Scratch s (t.newStructure w f) owner c W
      ∧ ∀ x i, (t.newStructure w f).mem x i
        = if x = f then .ofRaw 0 else if x = c ∧ i = w then plainEntry f else t.mem x i := by
  have hctl := h.setControl hw hfree hW (plainEntry f)
  have hframe : (t.setControl w (plainEntry f)).workFrame w = f := by
    rw [hctl.inv.workFrame_eq, setControl_mem h.inv, if_pos ⟨rfl, rfl⟩, plainEntry_address hf40]
  have hmem : ∀ x i, (t.newStructure w f).mem x i
      = if x = f then .ofRaw 0 else (t.setControl w (plainEntry f)).mem x i := by
    intro x i
    show ((t.setControl w (plainEntry f)).zeroFrame
      ((t.setControl w (plainEntry f)).workFrame w)).mem x i = _
    rw [hframe, zeroFrame_mem]
  refine ⟨hctl.setFrame hf (t.newStructure w f).mem ?_, ?_⟩
  · intro x i hx
    rw [hmem, if_neg hx]
  · intro x i
    rw [hmem, setControl_mem h.inv]

/-- The entries that link the kernel directories, written through two work
pages. -/
def linkKernel (s : Paging) (index index2 pdpt : Nat) : Paging :=
  let s := s.setEntry (s.workFrame index) 511 (plainEntry pdpt)
  let s := s.setEntry (s.workFrame index2) 510 (plainEntry s.kernelPd0)
  s.setEntry (s.workFrame index2) 511 (plainEntry s.kernelPd1)

/-- The steps of `Pager::Pager()`. -/
theorem newPager_cases (hs : s.newPager = some s') :
    ∃ pml4 s₁ index s₂ index2 s₃ pdpt s₄ s₅ s₆ s₇, s.palloc = some (pml4, s₁)
      ∧ s₁.aquireWorkpageIndex = some (index, s₂)
      ∧ (s₂.newStructure index pml4).aquireWorkpageIndex = some (index2, s₃)
      ∧ s₃.palloc = some (pdpt, s₄)
      ∧ s₅ = s₄.newStructure index2 pdpt
      ∧ s₆ = s₅.linkKernel index index2 pdpt
      ∧ s₇ = (s₆.releaseWorkpageIndex index).releaseWorkpageIndex index2
      ∧ s' = { s₇ with
          pagers := fun q =>
            if q = s₇.pagerCount then
              { pml4 := pml4, workPages := fun _ => none
                currentPml4e := 0, currentPdpte := 0, currentPde := 0
                lockDepth := 0, firstPotentialPage := 0x1000 }
            else s₇.pagers q
          pagerCount := s₇.pagerCount + 1 } := by
  unfold newPager at hs
  simp only [Option.bind_eq_bind, Option.bind_eq_some_iff, Prod.exists, pure,
    Option.some.injEq] at hs
  obtain ⟨pml4, s₁, h₁, index, s₂, h₂, index2, s₃, h₃, pdpt, s₄, h₄, rfl⟩ := hs
  exact ⟨pml4, s₁, index, s₂, index2, s₃, pdpt, s₄, _, _, _, h₁, h₂, h₃, h₄, rfl, rfl, rfl, rfl⟩

end Scratch

/-! ## §3. A new pager. -/

/-- The places of the two structures of a new pager. -/
def placeRoot (owner : Nat → Option Place) (n pml4 pdpt : Nat) : Nat → Option Place :=
  fun x =>
    if x = pml4 then some (some n, []) else if x = pdpt then some (some n, [511]) else owner x

/-- The two structures of a new pager, as `Pager::Pager()` fills them. -/
structure FreshRoot (s : Paging) (owner : Nat → Option Place) (pml4 pdpt : Nat) : Prop where
  ne : pml4 ≠ pdpt
  pml4Unplaced : owner pml4 = none
  pdptUnplaced : owner pdpt = none
  pml4Used : s.used pml4 = true ∧ pml4 < 2 ^ 40
  pdptUsed : s.used pdpt = true ∧ pdpt < 2 ^ 40
  pml4Entries : ∀ i, s.mem pml4 i = if i = 511 then plainEntry pdpt else .ofRaw 0
  pdptEntries : ∀ i, s.mem pdpt i = if i = 511 then plainEntry s.kernelPd1
    else if i = 510 then plainEntry s.kernelPd0 else .ofRaw 0

/-- Register a pager. -/
def addPager (s : Paging) (pg : Pager) : Paging :=
  { s with
    pagers := fun q => if q = s.pagerCount then pg else s.pagers q
    pagerCount := s.pagerCount + 1 }

theorem FreshRoot.placed {pml4 pdpt x n : Nat} {l : Place} (h : FreshRoot s owner pml4 pdpt)
    (hx : owner x = some l) : placeRoot owner n pml4 pdpt x = some l := by
  unfold placeRoot
  rw [if_neg (placed_ne hx h.pml4Unplaced), if_neg (placed_ne hx h.pdptUnplaced), hx]

theorem FreshRoot.place_pdpt {pml4 pdpt n : Nat} (h : FreshRoot s owner pml4 pdpt) :
    placeRoot owner n pml4 pdpt pdpt = some (some n, [511]) := by
  unfold placeRoot
  rw [if_neg h.ne.symm, if_pos rfl]

theorem placeRoot_cases {pml4 pdpt x n : Nat} {l : Place}
    (hx : placeRoot owner n pml4 pdpt x = some l) :
    (x = pml4 ∧ l = (some n, [])) ∨ (x = pdpt ∧ l = (some n, [511])) ∨ owner x = some l := by
  unfold placeRoot at hx
  split at hx
  · rename_i hx4
    injection hx with hx
    exact Or.inl ⟨hx4, hx.symm⟩
  · split at hx
    · rename_i hxp
      injection hx with hx
      exact Or.inr (Or.inl ⟨hxp, hx.symm⟩)
    · exact Or.inr (Or.inr hx)

/-- The only pointers of the two structures. -/
theorem FreshRoot.next_pml4 {pml4 pdpt i y : Nat} (h : FreshRoot s owner pml4 pdpt)
    (hn : next (s.mem pml4 i) = some y) : i = 511 ∧ y = pdpt := by
  rw [h.pml4Entries] at hn
  split at hn
  · rename_i hi
    rw [next_plainEntry h.pdptUsed.2] at hn
    injection hn with hn
    exact ⟨hi, hn.symm⟩
  · rw [next_zero] at hn
    exact absurd hn (by simp)

theorem FreshRoot.next_pdpt {pml4 pdpt i y : Nat} (h : FreshRoot s owner pml4 pdpt)
    (hinv : Inv s owner c) (hn : next (s.mem pdpt i) = some y) :
    (i = 511 ∧ y = s.kernelPd1) ∨ (i = 510 ∧ y = s.kernelPd0) := by
  rw [h.pdptEntries] at hn
  split at hn
  · rename_i hi
    rw [next_plainEntry (hinv.owned _ _ hinv.pd1).2] at hn
    injection hn with hn
    exact Or.inl ⟨hi, hn.symm⟩
  · split at hn
    · rename_i hi
      rw [next_plainEntry (hinv.owned _ _ hinv.pd0).2] at hn
      injection hn with hn
      exact Or.inr ⟨hi, hn.symm⟩
    · rw [next_zero] at hn
      exact absurd hn (by simp)

/-- **A new pager keeps the invariant.** -/
theorem Inv.addPager (h : Inv s owner c) {pml4 pdpt : Nat} (hr : FreshRoot s owner pml4 pdpt)
    {pg : Pager} (hpml4 : pg.pml4 = pml4) (hwork : ∀ k, pg.workPages k = none) :
    Inv (s.addPager pg) (placeRoot owner s.pagerCount pml4 pdpt) c := by
  have hold : ∀ x l, owner x = some l → placeRoot owner s.pagerCount pml4 pdpt x = some l :=
    fun x l hx => hr.placed hx
  have hpager : ∀ q k w, ((s.addPager pg).pagers q).workPages k = some w →
      (s.pagers q).workPages k = some w := by
    intro q k w hw
    change (if q = s.pagerCount then pg else s.pagers q).workPages k = some w at hw
    split at hw
    · rw [hwork] at hw
      exact absurd hw (by simp)
    · exact hw
  refine ⟨⟨?_⟩, ?_, hold _ _ h.pd0, hold _ _ h.pd1, hold _ _ h.control, h.window, h.self, ?_, ?_,
    ?_, fun q k w hw => h.work q k w (hpager q k w hw),
    fun q k q' k' w hw hw' => h.workInj q k q' k' w (hpager q k w hw) (hpager q' k' w hw')⟩
  · intro x l i y hx hl hn
    change next (s.mem x i) = some y at hn
    rcases placeRoot_cases hx with ⟨rfl, rfl⟩ | ⟨rfl, rfl⟩ | hx
    · obtain ⟨rfl, rfl⟩ := hr.next_pml4 hn
      exact hr.place_pdpt
    · rcases hr.next_pdpt h hn with ⟨rfl, rfl⟩ | ⟨rfl, rfl⟩
      · exact hold _ _ h.pd1
      · exact hold _ _ h.pd0
    · exact hold _ _ (h.labelling.edge x l i y hx hl hn)
  · intro x l hx
    rcases placeRoot_cases hx with ⟨rfl, -⟩ | ⟨rfl, -⟩ | hx
    · exact hr.pml4Used
    · exact hr.pdptUsed
    · exact h.owned x l hx
  · intro q hq
    show placeRoot owner s.pagerCount pml4 pdpt
      (if q = s.pagerCount then pg else s.pagers q).pml4 = _
    split
    · rename_i hqn
      rw [hqn, hpml4]
      exact if_pos rfl
    · rename_i hqn
      exact hold _ _ (h.root q (by
        have : q < s.pagerCount + 1 := hq
        omega))
  · intro x y hx
    show ∃ d, next (s.mem x 511) = some d
    rcases placeRoot_cases hx with ⟨rfl, -⟩ | ⟨-, hx⟩ | hx
    · exact ⟨pdpt, by rw [hr.pml4Entries, if_pos rfl, next_plainEntry hr.pdptUsed.2]⟩
    · exact absurd (congrArg Prod.snd hx) (by simp)
    · exact h.rootTop x y hx
  · intro x y hx
    show next (s.mem x 510) = some s.kernelPd0 ∧ next (s.mem x 511) = some s.kernelPd1
    rcases placeRoot_cases hx with ⟨-, hx⟩ | ⟨rfl, -⟩ | hx
    · exact absurd (congrArg Prod.snd hx) (by simp)
    · rw [hr.pdptEntries, hr.pdptEntries, if_neg (by decide), if_pos rfl, if_pos rfl,
        next_plainEntry (h.owned _ _ h.pd0).2, next_plainEntry (h.owned _ _ h.pd1).2]
      exact ⟨rfl, rfl⟩
    · exact h.top x y hx

theorem Scratch.linkKernel {t : Paging} {W : Nat → Prop} (h : Scratch s t owner c W)
    {index index2 pml4 pdpt : Nat} (h4 : t.mem c index = plainEntry pml4)
    (hp : t.mem c index2 = plainEntry pdpt) (hun4 : owner pml4 = none) (hunp : owner pdpt = none)
    (h40 : pml4 < 2 ^ 40) (hp40 : pdpt < 2 ^ 40) (hc4 : c ≠ pml4) (hcp : c ≠ pdpt) :
    Scratch s (t.linkKernel index index2 pdpt) owner c W
      ∧ ∀ x i, (t.linkKernel index index2 pdpt).mem x i
        = if x = pdpt ∧ i = 511 then plainEntry t.kernelPd1
          else if x = pdpt ∧ i = 510 then plainEntry t.kernelPd0
          else if x = pml4 ∧ i = 511 then plainEntry pdpt else t.mem x i := by
  have hf : t.workFrame index = pml4 := by
    rw [h.inv.workFrame_eq, h4, plainEntry_address h40]
  have sc₁ := h.setEntry hun4 511 (plainEntry pdpt)
  have hf₁ : (t.setEntry pml4 511 (plainEntry pdpt)).workFrame index2 = pdpt := by
    rw [sc₁.inv.workFrame_eq, setEntry_mem, if_neg (fun hc => hc4 hc.1), hp,
      plainEntry_address hp40]
  have sc₂ := sc₁.setEntry hunp 510 (plainEntry t.kernelPd0)
  have hf₂ : ((t.setEntry pml4 511 (plainEntry pdpt)).setEntry pdpt 510
      (plainEntry t.kernelPd0)).workFrame index2 = pdpt := by
    rw [sc₂.inv.workFrame_eq, setEntry_mem, if_neg (fun hc => hcp hc.1), setEntry_mem,
      if_neg (fun hc => hc4 hc.1), hp, plainEntry_address hp40]
  have heq : t.linkKernel index index2 pdpt
      = ((t.setEntry pml4 511 (plainEntry pdpt)).setEntry pdpt 510
          (plainEntry t.kernelPd0)).setEntry pdpt 511 (plainEntry t.kernelPd1) := by
    unfold Paging.linkKernel
    simp only [hf]
    rw [hf₁]
    show Paging.setEntry _ (((t.setEntry pml4 511 (plainEntry pdpt)).setEntry pdpt 510
      (plainEntry t.kernelPd0)).workFrame index2) 511 _ = _
    rw [hf₂]
    rfl
  rw [heq]
  exact ⟨sc₂.setEntry hunp 511 _, fun x i => by simp only [setEntry_mem]⟩

/-- **What `Pager::Pager()` builds**, before it is registered. -/
theorem newPager_scratch (h : Inv s owner c) (hs : s.newPager = some s') :
    ∃ (W : Nat → Prop) (t : Paging) (pml4 pdpt : Nat) (pg : Pager),
      Scratch s t owner c W ∧ FreshRoot t owner pml4 pdpt ∧ s' = t.addPager pg
      ∧ pg.pml4 = pml4 ∧ (∀ k, pg.workPages k = none) ∧ pg.lockDepth = 0
      ∧ s.used pml4 = false ∧ s.used pdpt = false
      ∧ (∀ i, W i → i < 511 ∧ (t.mem c i).present = false)
      ∧ (∀ i, W i → ∀ q k, (s.pagers q).workPages k ≠ some i) := by
  obtain ⟨pml4, s₁, index, s₂, index2, s₃, pdpt, s₄, s₅, s₆, s₇, h₁, h₂, h₃, h₄, hs₅, hs₆, hs₇,
    hs'⟩ := newPager_cases hs
  let W : Nat → Prop := fun i => i = index ∨ i = index2
  -- the PML4
  obtain ⟨sc₁, hfree₄, h40₄, hun₄, hmem₁, hused₁⟩ := (Scratch.refl (W := W) h).palloc h₁
  obtain ⟨sc₂, hlt, hheld, -, hused₂, hmem₂⟩ := sc₁.aquire h₂ (Or.inl rfl)
  obtain ⟨scA, hmemA⟩ := sc₂.newStructure hlt hheld (Or.inl rfl) hun₄ h40₄
  have hc₄ : c ≠ pml4 := placed_ne h.control hun₄
  have hcA : (s₂.newStructure index pml4).mem c index = plainEntry pml4 := by
    rw [hmemA, if_neg hc₄, if_pos ⟨rfl, rfl⟩]
  -- the PDPT
  obtain ⟨sc₃, hlt2, hheld2, hpres2, hused₃, hmem₃⟩ := scA.aquire h₃ (Or.inr rfl)
  have hidx : index ≠ index2 := by
    rintro rfl
    rw [hcA, plainEntry_present] at hpres2
    exact absurd hpres2 (by decide)
  obtain ⟨sc₄, hfreeP, h40P, hunP, hmem₄, hused₄⟩ := sc₃.palloc h₄
  have hcP : c ≠ pdpt := placed_ne h.control hunP
  have hused₃' : s₃.used pml4 = true := by
    rw [hused₃]
    show s₂.used pml4 = true
    rw [hused₂]
    exact hused₁
  have hne : pml4 ≠ pdpt := by
    rintro rfl
    rw [hused₃'] at hfreeP
    exact absurd hfreeP (by decide)
  obtain ⟨sc₅, hmem₅⟩ := sc₄.newStructure hlt2 hheld2 (Or.inr rfl) hunP h40P
  rw [← hs₅] at sc₅ hmem₅
  have hc₅ : s₅.mem c index = plainEntry pml4 := by
    rw [hmem₅, if_neg hcP, if_neg (fun hc => hidx hc.2), hmem₄,
      hmem₃ c index (fun hc => hidx hc.2), hcA]
  have hc₅' : s₅.mem c index2 = plainEntry pdpt := by
    rw [hmem₅, if_neg hcP, if_pos ⟨rfl, rfl⟩]
  -- the links to the kernel directories
  obtain ⟨sc₆, hmem₆⟩ := sc₅.linkKernel hc₅ hc₅' hun₄ hunP h40₄ h40P hc₄ hcP
  rw [← hs₆] at sc₆ hmem₆
  -- the work pages are given back
  obtain ⟨scR, hmemR, hpresR⟩ := sc₆.release hlt hheld (Or.inl rfl)
  obtain ⟨sc₇, hmem₇, hpres₇⟩ := scR.release hlt2 hheld2 (Or.inr rfl)
  rw [← hs₇] at sc₇ hmem₇ hpres₇
  have hused₇ : s₇.used = s₄.used := by rw [hs₇, hs₆, hs₅]; rfl
  have hmono₄ : s₄.used pml4 = true := by
    obtain ⟨-, -, rfl⟩ := palloc_cases h₄
    show (if pml4 = pdpt then true else s₃.used pml4) = true
    rw [hused₃', if_neg hne]
  have hpd0 : s₅.kernelPd0 = s₇.kernelPd0 := by rw [sc₅.pd0, sc₇.pd0]
  have hpd1 : s₅.kernelPd1 = s₇.kernelPd1 := by rw [sc₅.pd1, sc₇.pd1]
  refine ⟨W, s₇, pml4, pdpt, _, sc₇, ⟨hne, hun₄, hunP, ?_, ?_, ?_, ?_⟩, hs', rfl, fun _ => rfl, rfl,
    hfree₄, ?_, ?_, ?_⟩
  · rw [hused₇]; exact ⟨hmono₄, h40₄⟩
  · rw [hused₇]; exact ⟨hused₄, h40P⟩
  · intro i
    rw [hmem₇ _ _ hc₄.symm, hmemR _ _ hc₄.symm, hmem₆, if_neg (fun hc => hne hc.1),
      if_neg (fun hc => hne hc.1)]
    by_cases hi : i = 511
    · rw [if_pos ⟨rfl, hi⟩, if_pos hi]
    · rw [if_neg (fun hc => hi hc.2), if_neg hi, hmem₅, if_neg hne,
        if_neg (fun hc => hc₄ hc.1.symm), hmem₄, hmem₃ _ _ (fun hc => hc₄ hc.1.symm), hmemA,
        if_pos rfl]
  · intro i
    rw [hmem₇ _ _ hcP.symm, hmemR _ _ hcP.symm, hmem₆, hpd0, hpd1]
    by_cases hi : i = 511
    · rw [if_pos ⟨rfl, hi⟩, if_pos hi]
    · rw [if_neg (fun hc => hi hc.2), if_neg hi]
      by_cases hi' : i = 510
      · rw [if_pos ⟨rfl, hi'⟩, if_pos hi']
      · rw [if_neg (fun hc => hi' hc.2), if_neg hi', if_neg (fun hc => hne hc.1.symm), hmem₅,
          if_pos rfl]
  · cases hu : s.used pdpt with
    | false => rfl
    | true =>
        rw [sc₃.used pdpt hu] at hfreeP
        exact absurd hfreeP (by decide)
  · rintro i (rfl | rfl)
    · refine ⟨hlt, ?_⟩
      rw [hpres₇, if_neg hidx, hpresR, if_pos rfl]
    · refine ⟨hlt2, ?_⟩
      rw [hpres₇, if_pos rfl]
  · rintro i (rfl | rfl)
    · exact hheld
    · exact hheld2

/-- Below `KERNEL_START` a new pager maps nothing. -/
theorem FreshRoot.translate_none {pml4 pdpt v : Nat} (hr : FreshRoot s owner pml4 pdpt)
    (hinv : Inv s owner c) {pg : Pager} (hpml4 : pg.pml4 = pml4) (hv : v % 2 ^ 36 < kernelPage) :
    translate (s.addPager pg) s.pagerCount v = none := by
  have hnot : ¬ (pml4e v = 511 ∧ (pdpte v = 511 ∨ pdpte v = 510)) := by
    intro h
    have hsh : sharedPath (path v) = true := by
      simp [sharedPath, path]
      tauto
    rw [sharedPath_iff] at hsh
    omega
  have hroot : ((s.addPager pg).pagers s.pagerCount).pml4 = pml4 := by
    show (if s.pagerCount = s.pagerCount then pg else _).pml4 = pml4
    rw [if_pos rfl, hpml4]
  unfold translate lookup
  rw [hroot]
  show (descend next s.mem pml4 (path v)).bind (fun f => leaf (s.mem f (pte v))) = none
  simp only [path, descend]
  cases h4 : next (s.mem pml4 (pml4e v)) with
  | none => rfl
  | some d =>
      obtain ⟨h511, rfl⟩ := hr.next_pml4 h4
      rw [Option.bind_some]
      cases h3 : next (s.mem d (pdpte v)) with
      | none => rfl
      | some e =>
          rcases hr.next_pdpt hinv h3 with ⟨h3', -⟩ | ⟨h3', -⟩
          · exact absurd ⟨h511, Or.inl h3'⟩ hnot
          · exact absurd ⟨h511, Or.inr h3'⟩ hnot

/-- The state after `Pager::Pager()`: the other pagers keep their translations,
and the new one maps nothing below `KERNEL_START`. -/
structure Created (s s' : Paging) : Prop where
  count : s'.pagerCount = s.pagerCount + 1
  pagers : ∀ q, q < s.pagerCount → s'.pagers q = s.pagers q
  unlocked : (s'.pagers s.pagerCount).lockDepth = 0
  hint : s'.firstPotentialKernelPage = s.firstPotentialKernelPage
  view : ∀ q v, q < s.pagerCount → ¬ InWindow v → translate s' q v = translate s q v
  empty : ∀ v, v % 2 ^ 36 < kernelPage → translate s' s.pagerCount v = none

theorem newPager_created (hinv : Inv s owner c) (ht : Tidy s c) (hs : s.newPager = some s') :
    Created s s' ∧ ∃ pml4 pdpt, s.used pml4 = false ∧ s.used pdpt = false
      ∧ Inv s' (placeRoot owner s.pagerCount pml4 pdpt) c ∧ Tidy s' c := by
  obtain ⟨W, t, pml4, pdpt, pg, sc, hr, rfl, hpml4, hwork, hlock, hfree4, hfreep, hWpres, hWheld⟩ :=
    newPager_scratch hinv hs
  have hpagers : ∀ q, q < s.pagerCount → (t.addPager pg).pagers q = s.pagers q := by
    intro q hq
    show (if q = t.pagerCount then pg else t.pagers q) = s.pagers q
    rw [sc.count, if_neg (Nat.ne_of_lt hq), sc.pagers]
  have hheld : ∀ q k w, ((t.addPager pg).pagers q).workPages k = some w →
      q < s.pagerCount ∧ (s.pagers q).workPages k = some w := by
    intro q k w hw
    change (if q = t.pagerCount then pg else t.pagers q).workPages k = some w at hw
    split at hw
    · rw [hwork] at hw
      exact absurd hw (by simp)
    · rw [sc.pagers] at hw
      exact ⟨(ht.slots q k w hw).1, hw⟩
  have hcount : (t.addPager pg).pagerCount = s.pagerCount + 1 := congrArg (· + 1) sc.count
  refine ⟨⟨hcount, hpagers, ?_, sc.hint, ?_, ?_⟩, pml4, pdpt, hfree4, hfreep, ?_, ?_, ?_, ?_⟩
  · show (if s.pagerCount = t.pagerCount then pg else t.pagers s.pagerCount).lockDepth = 0
    rw [if_pos sc.count.symm, hlock]
  · intro q v hq hv
    rw [← sc.view q v hq hv]
    show lookup next leaf t.mem ((t.addPager pg).pagers q).pml4 (path v) (pte v)
      = lookup next leaf t.mem (t.pagers q).pml4 (path v) (pte v)
    rw [hpagers q hq, sc.pagers]
  · intro v hv
    rw [← sc.count]
    exact hr.translate_none sc.inv hpml4 hv
  · rw [← sc.count]
    exact sc.inv.addPager hr hpml4 hwork
  · intro q w hw
    obtain ⟨hq, hw'⟩ := hheld q 0 w hw
    have hWw : ¬ W w := fun hW => hWheld w hW q 0 hw'
    show (t.mem c w).address = _
    rw [hpagers q hq, sc.slots w hWw]
    exact ht.roots q w hw'
  · intro q k w hw
    obtain ⟨hq, hw'⟩ := hheld q k w hw
    rw [hpagers q hq, hcount]
    exact ⟨Nat.lt_succ_of_lt hq, (ht.slots q k w hw').2⟩
  · intro i hi hpres
    change (t.mem c i).present = true at hpres
    have hWi : ¬ W i := by
      intro hW
      rw [(hWpres i hW).2] at hpres
      exact absurd hpres (by decide)
    rw [sc.slots i hWi] at hpres
    obtain ⟨q, k, hqk⟩ := ht.held i hi hpres
    exact ⟨q, k, by rw [hpagers q (ht.slots q k i hqk).1]; exact hqk⟩

theorem Created.current (h : Created s s')
    (hcur : ∀ q, q < s.pagerCount → 0 < (s.pagers q).lockDepth →
      (s.pagers q).currentPml4e = -1) :
    ∀ q, q < s'.pagerCount → 0 < (s'.pagers q).lockDepth → (s'.pagers q).currentPml4e = -1 := by
  intro q hq hl
  rw [h.count] at hq
  rcases Nat.lt_or_eq_of_le (Nat.lt_succ_iff.mp hq) with hlt | rfl
  · rw [h.pagers q hlt] at hl ⊢
    exact hcur q hlt hl
  · rw [h.unlocked] at hl
    exact absurd hl (Nat.lt_irrefl 0)

/-- **`Pager::Pager()` keeps a good state good.** -/
theorem newPager_good (hg : Good s) (hs : s.newPager = some s') : Good s' ∧ Created s s' := by
  obtain ⟨owner, c, hinv, ht⟩ := hg.tables
  obtain ⟨hcr, pml4, pdpt, -, -, hinv', ht'⟩ := newPager_created hinv ht hs
  exact ⟨⟨⟨_, c, hinv', ht'⟩, hcr.current hg.current, by rw [hcr.hint]; exact hg.aligned⟩, hcr⟩

end Paging

end MierOS.Memory.Virtual
