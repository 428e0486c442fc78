/-
  MierOS.Memory.PagerInit
  **`Pager::init` ENDS IN A GOOD STATE**, from any memory, with one pager.

  Until the control page exists nothing can be said through the window, so the
  boot phase has an invariant of its own: the two kernel directories and the
  page tables under the first are placed, nothing hangs under the second, and
  the bootstrap structures are in no one's way.
-/
import MierOS.Memory.PagerLife

namespace MierOS.Memory.Virtual

open Lib.TableTree

namespace Paging

/-- **The invariant of the boot phase**; `R` holds the bootstrap frames. -/
structure Boot (s : Paging) (owner : Nat → Option Place) (R : List Nat) : Prop where
  labelling : Labelling next child depth 3 s.mem owner
  owned : ∀ f l, owner f = some l → s.used f = true ∧ f < 2 ^ 40
  pd0 : owner s.kernelPd0 = some (none, [511, 510])
  pd1 : owner s.kernelPd1 = some (none, [511, 511])
  deep : ∀ f l, owner f = some l → 2 ≤ depth l
  pd1Empty : ∀ i, s.mem s.kernelPd1 i = .ofRaw 0
  noPagers : s.pagerCount = 0
  noWork : ∀ q k, (s.pagers q).workPages k = none
  reserved : ∀ f, f ∈ R → s.used f = true ∧ owner f = none

variable {s s' : Paging} {owner : Nat → Option Place} {R : List Nat}

/-! ## §1. The directories. -/

theorem initDirectories_boot (hpagers : s.pagerCount = 0)
    (hwork : ∀ q k, (s.pagers q).workPages k = none) {initPml4 initPdpt : Nat}
    (hs : s.initDirectories = some (initPml4, initPdpt, s')) :
    ∃ owner, Boot s' owner [initPml4, initPdpt] := by
  unfold initDirectories at hs
  simp only [Option.bind_eq_bind, Option.bind_eq_some_iff, Prod.exists, pure, Option.some.injEq,
    Prod.mk.injEq] at hs
  obtain ⟨f₄, s₁, h₁, f₃, s₂, h₂, pd0, s₃, h₃, pd1, s₄, h₄, rfl, rfl, rfl⟩ := hs
  obtain ⟨hu₁, -, rfl⟩ := palloc_cases h₁
  obtain ⟨hu₂, -, rfl⟩ := palloc_cases h₂
  obtain ⟨hu₃, h40₃, rfl⟩ := palloc_cases h₃
  obtain ⟨hu₄, h40₄, rfl⟩ := palloc_cases h₄
  simp only at hu₁ hu₂ hu₃ hu₄
  -- the four frames differ: each was unused when it was handed out
  have h21 : f₃ ≠ f₄ := by rintro rfl; simp at hu₂
  have h31 : pd0 ≠ f₄ := by rintro rfl; simp at hu₃
  have h32 : pd0 ≠ f₃ := by rintro rfl; simp at hu₃
  have h41 : pd1 ≠ f₄ := by rintro rfl; simp at hu₄
  have h42 : pd1 ≠ f₃ := by rintro rfl; simp at hu₄
  have h43 : pd1 ≠ pd0 := by rintro rfl; simp at hu₄
  refine ⟨fun f => if f = pd0 then some (none, [511, 510])
    else if f = pd1 then some (none, [511, 511]) else none, ⟨?_⟩, ?_, ?_, ?_, ?_, ?_, hpagers,
    hwork, ?_⟩
  · intro f l i y hf _ hn
    simp only [setEntry_mem, zeroFrame_mem] at hn
    split at hf
    · rename_i hfp
      rw [hfp, if_neg (fun h => h32 h.1), if_neg (fun h => h32 h.1), if_neg (fun h => h31 h.1),
        if_neg h43.symm, if_pos rfl, next_zero] at hn
      exact absurd hn (by simp)
    · split at hf
      · rename_i hfp
        rw [hfp, if_neg (fun h => h42 h.1), if_neg (fun h => h42 h.1), if_neg (fun h => h41 h.1),
          if_pos rfl, next_zero] at hn
        exact absurd hn (by simp)
      · exact absurd hf (by simp)
  · intro f l hf
    split at hf
    · rename_i hfp
      subst hfp
      exact ⟨by simp [setEntry, zeroFrame], h40₃⟩
    · split at hf
      · rename_i hfp
        subst hfp
        exact ⟨by simp [setEntry, zeroFrame], h40₄⟩
      · exact absurd hf (by simp)
  · exact if_pos rfl
  · show (if pd1 = pd0 then _ else if pd1 = pd1 then _ else _) = _
    rw [if_neg h43, if_pos rfl]
  · intro f l hf
    split at hf
    · injection hf with hf
      subst hf
      exact Nat.le_refl 2
    · split at hf
      · injection hf with hf
        subst hf
        exact Nat.le_refl 2
      · exact absurd hf (by simp)
  · intro i
    simp only [setEntry_mem, zeroFrame_mem]
    show (if pd1 = f₃ ∧ i = 511 then _ else if pd1 = f₃ ∧ i = 510 then _
      else if pd1 = f₄ ∧ i = 511 then _ else if pd1 = pd1 then _ else _) = _
    rw [if_neg (fun h => h42 h.1), if_neg (fun h => h42 h.1), if_neg (fun h => h41 h.1),
      if_pos rfl]
  · intro f hf
    simp only [List.mem_cons, List.not_mem_nil, or_false] at hf
    rcases hf with rfl | rfl
    · refine ⟨by simp [setEntry, zeroFrame], ?_⟩
      rw [if_neg h31.symm, if_neg h41.symm]
    · refine ⟨by simp [setEntry, zeroFrame], ?_⟩
      rw [if_neg h32.symm, if_neg h42.symm]

/-! ## §2. The kernel mapping. -/

theorem Boot.unused_unplaced (h : Boot s owner R) {f : Nat} (hf : s.used f = false) :
    owner f = none := by
  cases hown : owner f with
  | none => rfl
  | some l =>
      rw [(h.owned f l hown).1] at hf
      exact absurd hf (by decide)

theorem Boot.setLeaf (h : Boot s owner R) {pt i : Nat} {l : Place} (hpt : owner pt = some l)
    (hl : depth l = 3) (e : PageStructuresEntry) : Boot (s.setEntry pt i e) owner R := by
  refine ⟨h.labelling.write_leaf hpt hl ?_, h.owned, h.pd0, h.pd1, h.deep, ?_, h.noPagers,
    h.noWork, h.reserved⟩
  · intro f j hf
    rw [setEntry_mem, if_neg (fun hfj => hf hfj.1)]
  · intro j
    show (s.setEntry pt i e).mem s.kernelPd1 j = .ofRaw 0
    rw [setEntry_mem, if_neg]
    · exact h.pd1Empty j
    · rintro ⟨rfl, -⟩
      rw [h.pd1] at hpt
      injection hpt with hpt
      subst hpt
      exact absurd hl (by decide)

/-- Hanging a new structure under an inner one. -/
theorem Boot.link (h : Boot s owner R) {g j f : Nat} {l : Place} (hg : owner g = some l)
    (hf : s.used f = false) (hf40 : f < 2 ^ 40)
    {mem : Nat → Nat → PageStructuresEntry} (hlink : Linked next leaf s.mem mem g j f)
    (hpd1 : ∀ i, mem s.kernelPd1 i = .ofRaw 0) :
    Boot { s with
        mem := mem
        supply := s.supply.tail
        used := fun x => if x = f then true else s.used x }
      (placeFresh owner l j f) R := by
  have hfnone := h.unused_unplaced hf
  have hold : ∀ x l', owner x = some l' → placeFresh owner l j f x = some l' :=
    fun x l' hx => placeFresh_old hfnone hx
  have hused : ∀ x, s.used x = true → (if x = f then true else s.used x) = true := by
    intro x hx
    split
    · rfl
    · exact hx
  refine ⟨h.labelling.link hg hfnone hlink, ?_, hold _ _ h.pd0, hold _ _ h.pd1, ?_, hpd1,
    h.noPagers, h.noWork, ?_⟩
  · intro x l' hx
    rcases placeFresh_cases hx with hx | ⟨rfl, -⟩
    · exact ⟨hused x (h.owned x l' hx).1, (h.owned x l' hx).2⟩
    · exact ⟨if_pos rfl, hf40⟩
  · intro x l' hx
    rcases placeFresh_cases hx with hx | ⟨-, rfl⟩
    · exact h.deep x l' hx
    · rw [depth_child]
      have := h.deep g l hg
      omega
  · intro x hx
    obtain ⟨hu, hnone⟩ := h.reserved x hx
    refine ⟨hused x hu, placeFresh_unplaced ?_ hnone⟩
    rintro rfl
    rw [hf] at hu
    exact absurd hu (by decide)

/-- The directory entry `Pager::init` writes for a new page table. -/
theorem next_initEntry {f : Nat} (hf : f < 2 ^ 40) :
    next { PageStructuresEntry.ofRaw (f <<< 12) with present := true, write := true } = some f := by
  show some (((f <<< 12) >>> 12) % 2 ^ 40) = some f
  rw [Nat.shiftLeft_shiftRight, Nat.mod_eq_of_lt hf]

theorem initPageTable_boot (h : Boot s owner R) {idx pt : Nat}
    (hs : s.initPageTable idx = some (pt, s')) :
    ∃ owner', Boot s' owner' R ∧ owner' pt = some (none, [511, 510, idx]) := by
  unfold initPageTable at hs
  split at hs
  · -- the page table exists
    rename_i hpres
    simp only [Option.some.injEq, Prod.mk.injEq] at hs
    obtain ⟨rfl, rfl⟩ := hs
    have hown := h.labelling.edge _ _ idx _ h.pd0 (by decide) (next_of_present hpres)
    exact ⟨owner, h, hown⟩
  · rename_i hpres
    rw [Option.map_eq_some_iff] at hs
    obtain ⟨⟨f, s₂⟩, hpal, hs⟩ := hs
    simp only [Prod.mk.injEq] at hs
    obtain ⟨rfl, rfl⟩ := hs
    obtain ⟨hf, hf40, rfl⟩ := palloc_cases hpal
    have hfnone := h.unused_unplaced hf
    have hf0 : f ≠ s.kernelPd0 := (placed_ne h.pd0 hfnone).symm
    have hf1 : f ≠ s.kernelPd1 := (placed_ne h.pd1 hfnone).symm
    have h01 : s.kernelPd1 ≠ s.kernelPd0 := by
      intro heq
      have := h.pd1
      rw [heq, h.pd0] at this
      exact absurd this (by decide)
    have hlink : Linked next leaf s.mem (fun x j => if x = f then .ofRaw 0
        else if x = s.kernelPd0 ∧ j = idx then
          { PageStructuresEntry.ofRaw (f <<< 12) with present := true, write := true }
        else s.mem x j) s.kernelPd0 idx f := by
      refine ⟨hf0, next_eq_none (by simpa using hpres), ?_, ?_, ?_⟩
      · rw [if_neg hf0.symm, if_pos ⟨rfl, rfl⟩]
        exact next_initEntry hf40
      · intro j
        rw [if_pos rfl]
        exact ⟨next_zero, leaf_zero⟩
      · intro x j hx hslot
        rw [if_neg hx, if_neg hslot]
    have hboot := h.link h.pd0 hf hf40 hlink (by
      intro j
      rw [if_neg hf1.symm, if_neg (fun hc => h01 hc.1)]
      exact h.pd1Empty j)
    exact ⟨_, hboot, if_pos rfl⟩

theorem initPage_boot (h : Boot s owner R) {kernelBaseP kernelBaseV i : Nat} {pmr : Pmr}
    (hs : initPage kernelBaseP kernelBaseV pmr s i = some s') : ∃ owner', Boot s' owner' R := by
  unfold initPage at hs
  simp only [Option.bind_eq_bind, Option.bind_eq_some_iff, Prod.exists, pure,
    Option.some.injEq] at hs
  obtain ⟨pt, s₁, hpt, rfl⟩ := hs
  obtain ⟨owner', hb, hown⟩ := initPageTable_boot h hpt
  exact ⟨owner', hb.setLeaf hown rfl _⟩

theorem foldlM_boot {α : Type} {step : Paging → α → Option Paging} {R : List Nat}
    (hstep : ∀ s s' a owner, Boot s owner R → step s a = some s' → ∃ owner', Boot s' owner' R) :
    ∀ (l : List α) (s s' : Paging) (owner : Nat → Option Place), Boot s owner R →
      l.foldlM step s = some s' → ∃ owner', Boot s' owner' R := by
  intro l
  induction l with
  | nil =>
      intro s s' owner h hs
      simp only [List.foldlM_nil, pure, Option.some.injEq] at hs
      subst hs
      exact ⟨owner, h⟩
  | cons a l ih =>
      intro s s' owner h hs
      simp only [List.foldlM_cons, Option.bind_eq_bind, Option.bind_eq_some_iff] at hs
      obtain ⟨s₁, h₁, hs⟩ := hs
      obtain ⟨owner₁, hb⟩ := hstep s s₁ a owner h h₁
      exact ih s₁ s' owner₁ hb hs

/-! ## §3. The control page. -/

theorem initControl_inv (h : Boot s owner R) (hs : s.initControl = some s') :
    ∃ owner' c, Inv s' owner' c ∧ Tidy s' c ∧ s'.pagerCount = 0
      ∧ ∀ f, f ∈ R → s'.used f = true ∧ owner' f = none := by
  unfold initControl at hs
  simp only [Option.bind_eq_bind, Option.bind_eq_some_iff, Prod.exists, pure,
    Option.some.injEq] at hs
  obtain ⟨c, s₁, hpal, rfl⟩ := hs
  obtain ⟨hc, hc40, rfl⟩ := palloc_cases hpal
  have hcnone := h.unused_unplaced hc
  have hc1 : s.kernelPd1 ≠ c := placed_ne h.pd1 hcnone
  have hold : ∀ x l', owner x = some l' →
      placeFresh owner (none, [511, 511]) 511 c x = some l' :=
    fun x l' hx => placeFresh_old hcnone hx
  have hnew : ∀ x l', placeFresh owner (none, [511, 511]) 511 c x = some l' →
      2 ≤ depth l' ∧ (x = c ∨ owner x = some l') := by
    intro x l' hx
    rcases placeFresh_cases hx with hx | ⟨hxc, rfl⟩
    · exact ⟨h.deep x l' hx, Or.inr hx⟩
    · exact ⟨by decide, Or.inl hxc⟩
  have hused : ∀ x, s.used x = true → (if x = c then true else s.used x) = true := by
    intro x hx
    split
    · rfl
    · exact hx
  have hlink : Linked next leaf s.mem (fun x j => if x = c then .ofRaw 0
      else if x = s.kernelPd1 ∧ j = 511 then plainEntry c else s.mem x j) s.kernelPd1 511 c := by
    refine ⟨hc1.symm, by rw [h.pd1Empty]; exact next_zero, ?_, ?_, ?_⟩
    · rw [if_neg hc1, if_pos ⟨rfl, rfl⟩, next_plainEntry hc40]
    · intro j
      rw [if_pos rfl]
      exact ⟨next_zero, leaf_zero⟩
    · intro x j hx hslot
      rw [if_neg hx, if_neg hslot]
  -- the control page's own slot is a leaf write
  have hlab : Labelling next child depth 3
      (fun x j => if x = c ∧ j = 511 then .ofRaw (c <<< 12 ||| 0x8000000000000103)
        else if x = s.kernelPd1 ∧ j = 511 then plainEntry c
        else if x = c then .ofRaw 0 else s.mem x j)
      (placeFresh owner (none, [511, 511]) 511 c) := by
    refine (h.labelling.link h.pd1 hcnone hlink).write_leaf (if_pos rfl)
      (show depth (child (none, [511, 511]) 511) = 3 from rfl) ?_
    intro x j hx
    rw [if_neg (fun hxc => hx hxc.1), if_neg hx, if_neg hx]
  refine ⟨placeFresh owner (none, [511, 511]) 511 c, c, ⟨hlab, ?_, hold _ _ h.pd0, hold _ _ h.pd1,
    if_pos rfl, ?_, ?_, ?_, ?_, ?_, ?_, ?_⟩, ⟨?_, ?_, ?_⟩, h.noPagers, ?_⟩
  · intro x l' hx
    rcases (hnew x l' hx).2 with rfl | hx
    · exact ⟨if_pos rfl, hc40⟩
    · exact ⟨hused x (h.owned x l' hx).1, (h.owned x l' hx).2⟩
  · rw [setEntry_mem, if_neg (fun hx => hc1 hx.1), setEntry_mem, if_pos ⟨rfl, rfl⟩]
    exact next_plainEntry hc40
  · rw [setEntry_mem, if_pos ⟨rfl, rfl⟩]
    exact ofRaw_or_address hc40 (by decide)
  · intro p hp
    change p < s.pagerCount at hp
    rw [h.noPagers] at hp
    exact absurd hp (Nat.not_lt_zero p)
  · intro x y hx
    exact absurd (hnew x _ hx).1 (show ¬ 2 ≤ 0 by decide)
  · intro x y hx
    exact absurd (hnew x _ hx).1 (show ¬ 2 ≤ 1 by decide)
  · intro q k w hw
    exact absurd ((h.noWork q k).symm.trans hw) (by simp)
  · intro q k q' k' w hw
    exact absurd ((h.noWork q k).symm.trans hw) (by simp)
  · intro q w hw
    exact absurd ((h.noWork q 0).symm.trans hw) (by simp)
  · intro q k w hw
    exact absurd ((h.noWork q k).symm.trans hw) (by simp)
  · intro i hi hpres
    simp only [setEntry_mem, zeroFrame_mem] at hpres
    rw [if_neg (by omega), if_neg (fun hx => hc1 hx.1.symm), if_pos trivial] at hpres
    exact absurd hpres (by decide)
  · intro f hf
    obtain ⟨hu, hnone⟩ := h.reserved f hf
    refine ⟨hused f hu, placeFresh_unplaced ?_ hnone⟩
    rintro rfl
    rw [hc] at hu
    exact absurd hu (by decide)

/-! ## §4. `Pager::init`. -/

/-- Frames that hold no page structure may be freed. -/
theorem Inv.free {c : Nat} (h : Inv s owner c) (ht : Tidy s c) (used : Nat → Bool)
    (hused : ∀ f l, owner f = some l → used f = s.used f) :
    Inv { s with used := used } owner c ∧ Tidy { s with used := used } c := by
  refine ⟨⟨h.labelling, ?_, h.pd0, h.pd1, h.control, h.window, h.self, h.root, h.rootTop, h.top,
    h.work, h.workInj⟩, ht.roots, ht.slots, ht.held⟩
  intro f l hf
  obtain ⟨hu, h40⟩ := h.owned f l hf
  exact ⟨(hused f l hf).trans hu, h40⟩

/-- The control page, then the kernel's pager; the frames of the bootstrap tables are
given back at the end. -/
theorem init_phases {mem : Nat → Nat → PageStructuresEntry} {used : Nat → Bool}
    {supply : List Nat} {kernelBaseP kernelBaseV : Nat} {pmrs : List Pmr}
    (hs : init mem used supply kernelBaseP kernelBaseV pmrs = some s') :
    ∃ (initPml4 initPdpt : Nat) (s₂ s₃ s₄ : Paging) (owner : Nat → Option Place) (c : Nat),
      s₂.initControl = some s₃
      ∧ ({ s₃ with firstPotentialKernelPage := kernelStart } : Paging).newPager = some s₄
      ∧ Inv { s₃ with firstPotentialKernelPage := kernelStart } owner c
      ∧ Tidy { s₃ with firstPotentialKernelPage := kernelStart } c ∧ s₃.pagerCount = 0
      ∧ (∀ f, f ∈ [initPml4, initPdpt] → s₃.used f = true ∧ owner f = none)
      ∧ s' = { s₄ with used := fun x =>
        if x = initPml4 ∨ x = initPdpt then false else s₄.used x } := by
  unfold init at hs
  simp only [Option.bind_eq_bind, Option.bind_eq_some_iff, Prod.exists, pure,
    Option.some.injEq] at hs
  obtain ⟨initPml4, initPdpt, s₁, h₁, s₂, h₂, s₃, h₃, s₄, h₄, rfl⟩ := hs
  obtain ⟨owner₁, hb₁⟩ := initDirectories_boot rfl (fun _ _ => rfl) h₁
  obtain ⟨owner₂, hb₂⟩ := foldlM_boot
    (fun s s' pmr owner hb hs => foldlM_boot (fun _ _ _ _ hb hs => initPage_boot hb hs) _ s s'
      owner hb hs) pmrs s₁ s₂ owner₁ hb₁ h₂
  obtain ⟨owner₃, c, hinv, ht, hcount, hreserved⟩ := initControl_inv hb₂ h₃
  have hinv' : Inv { s₃ with firstPotentialKernelPage := kernelStart } owner₃ c :=
    ⟨hinv.labelling, hinv.owned, hinv.pd0, hinv.pd1, hinv.control, hinv.window, hinv.self,
      hinv.root, hinv.rootTop, hinv.top, hinv.work, hinv.workInj⟩
  exact ⟨initPml4, initPdpt, s₂, s₃, s₄, owner₃, c, h₃, h₄, hinv', ⟨ht.roots, ht.slots, ht.held⟩,
    hcount, hreserved, rfl⟩

/-- **`Pager::init` leaves one unlocked pager in a good state.** -/
theorem init_good {mem : Nat → Nat → PageStructuresEntry} {used : Nat → Bool} {supply : List Nat}
    {kernelBaseP kernelBaseV : Nat} {pmrs : List Pmr}
    (hs : init mem used supply kernelBaseP kernelBaseV pmrs = some s') :
    Good s' ∧ s'.pagerCount = 1 ∧ (s'.pagers 0).lockDepth = 0
      ∧ ∀ v, v % 2 ^ 36 < kernelPage → translate s' 0 v = none := by
  obtain ⟨initPml4, initPdpt, s₂, s₃, s₄, owner₃, c, -, h₄, hinv', ht, hcount, hreserved, rfl⟩ :=
    init_phases hs
  obtain ⟨hcr, pml4, pdpt, hf4, hfp, hinv₄, ht₄⟩ :=
    newPager_created hinv' ht h₄
  have hcount₄ : s₄.pagerCount = 1 := by
    rw [hcr.count]
    exact congrArg (· + 1) hcount
  -- the bootstrap frames were in use all along, so they became no one's structures
  have hfree := hinv₄.free ht₄
    (fun x => if x = initPml4 ∨ x = initPdpt then false else s₄.used x) (by
      intro f l hf
      rw [if_neg]
      intro hmem
      have hR : f ∈ [initPml4, initPdpt] := by simpa using hmem
      obtain ⟨hu, hnone⟩ := hreserved f hR
      rcases placeRoot_cases hf with ⟨rfl, -⟩ | ⟨rfl, -⟩ | hf
      · exact absurd (hu.symm.trans hf4) (by decide)
      · exact absurd (hu.symm.trans hfp) (by decide)
      · rw [hnone] at hf
        exact absurd hf (by simp))
  have hcount₃ : ({ s₃ with firstPotentialKernelPage := kernelStart } : Paging).pagerCount = 0 :=
    hcount
  refine ⟨⟨⟨_, c, hfree.1, hfree.2⟩, ?_, ?_⟩, hcount₄, ?_, ?_⟩
  · exact hcr.current (fun q hq => absurd (Nat.lt_of_lt_of_eq hq hcount) (Nat.not_lt_zero q))
  · show s₄.firstPotentialKernelPage % 2 ^ 12 = 0
    rw [hcr.hint]
    exact (by decide : kernelStart % 2 ^ 12 = 0)
  · have := hcr.unlocked
    rw [hcount₃] at this
    exact this
  · intro v hv
    have := hcr.empty v hv
    rw [hcount₃] at this
    exact this

end Paging

end MierOS.Memory.Virtual
