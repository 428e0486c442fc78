/-
  MierOS.Memory.FreeRange
  **THE SEARCH FOR FREE PAGES IS EXACT**, wherever it starts.

  `getFreeRange` looks at the pages through lookups that may create page
  structures and take the work pages of the pager.  Both happen before an entry
  is read, so the search sees the pages as it leaves them (`Looked`): no page
  comes or goes but the work pages themselves.

  Main results: `getFreeRangeLoop_scan`, `getFreeRangeLoop_returns`.
-/
import Mathlib.Data.Set.Card
import Mathlib.Order.Bounds.Basic
import MierOS.Lib.FirstFit
import MierOS.Memory.PagerFrame
import MierOS.Memory.PagerRun

namespace MierOS.Memory.Virtual

open Lib Lib.TableTree Lib.FirstFit

namespace Paging

/-! ## §1. What a lookup makes present. -/

/-- Page `v` is not to be had: it is present, or past the address space. -/
def pageUsed (s : Paging) (p v : Nat) : Bool :=
  decide (2 ^ 52 ≤ v) || (translate s p v).isSome

/-- Page `v` is the address of a work page of `p`. -/
def OwnWorkPage (s : Paging) (p v : Nat) : Prop :=
  windowPage ≤ v % 2 ^ 36 ∧ ∃ k, (s.pagers p).workPages k = some (v % 2 ^ 9)

/-- The topmost page, where the control page shows itself, is present. -/
def TopPresent (s : Paging) (p : Nat) : Prop := (translate s p (2 ^ 52 - 1)).isSome = true

/-- **What lookups do to the pages**: those of the work pages of `p` become
present, and nothing else changes. -/
structure Looked (s s' : Paging) (p : Nat) : Prop where
  steps : Steps s s' id
  shown : ∀ q v, q < s.pagerCount →
    ((translate s' q v).isSome = true ↔ (translate s q v).isSome = true ∨ OwnWorkPage s' p v)

section Looked

variable {s s' s'' : Paging} {owner owner' : Nat → Option Place} {c p : Nat}

theorem leaf_isSome (e : PageStructuresEntry) : (leaf e).isSome = e.present := by
  unfold leaf
  cases e.present <;> rfl

/-- Every pager reaches the control page. -/
theorem Inv.descend_window (h : Inv s owner c) {q : Nat} (hq : q < s.pagerCount) :
    descend next s.mem (s.pagers q).pml4 [511, 511, 511] = some c := by
  obtain ⟨d, hd⟩ := h.rootTop _ _ (h.root q hq)
  have hown := h.labelling.edge _ _ 511 d (h.root q hq) (show 0 < 3 by decide) hd
  obtain ⟨-, hpd1⟩ := h.top d _ hown
  simp only [descend, hd, hpd1, h.window, Option.bind_some]

/-- The pages of the window are the entries of the control page. -/
theorem Inv.translate_window (h : Inv s owner c) {q v : Nat} (hq : q < s.pagerCount)
    (hv : InWindow v) : translate s q v = leaf (s.mem c (pte v)) := by
  unfold translate lookup
  rw [show path v = [511, 511, 511] from hv, h.descend_window hq, Option.bind_some]

theorem OwnWorkPage.present (h : Inv s owner c) {q v : Nat} (hq : q < s.pagerCount)
    (hown : OwnWorkPage s p v) : (translate s q v).isSome = true := by
  obtain ⟨hv, k, hk⟩ := hown
  rw [h.translate_window hq ((inWindow_iff v).mpr hv), leaf_isSome, pte_eq]
  exact (h.work p k _ hk).2

theorem Looked.refl (hg : Good s) (p : Nat) : Looked s s p := by
  obtain ⟨owner, c, hinv, -⟩ := hg.tables
  refine ⟨Steps.refl hg, fun q v hq => ⟨Or.inl, ?_⟩⟩
  rintro (hold | hown)
  · exact hold
  · exact hown.present hinv hq

theorem Looked.trans (h : Looked s s' p) (h' : Looked s' s'' p) : Looked s s'' p where
  steps := h.steps.trans h'.steps
  shown q v hq := by
    rw [h'.shown q v (by rw [h.steps.count]; exact hq), h.shown q v hq, or_assoc]
    refine or_congr_right ⟨?_, Or.inr⟩
    rintro (⟨hv, k, hk⟩ | hown)
    · exact ⟨hv, k, h'.steps.held p k _ hk⟩
    · exact hown

theorem Looked.holdsAll (h : Looked s s' p) (hall : HoldsAll s p) : HoldsAll s' p := by
  intro k hk
  obtain ⟨w, hw⟩ := hall k hk
  exact ⟨w, h.steps.held p k w hw⟩

theorem Looked.topPresent (h : Looked s s' p) (hp : Locked s p) (htop : TopPresent s p) :
    TopPresent s' p :=
  (h.shown p _ hp.1).mpr (Or.inl htop)

/-- **A pager with all its work pages changes no page** by looking. -/
theorem Looked.same (h : Looked s s' p) (hg : Good s) (hall : HoldsAll s p) {q v : Nat}
    (hq : q < s.pagerCount) : (translate s' q v).isSome = (translate s q v).isSome := by
  obtain ⟨owner, c, hinv, -⟩ := hg.tables
  obtain ⟨owner', c', hinv', ht'⟩ := h.steps.good.tables
  rw [Bool.eq_iff_iff, h.shown q v hq]
  refine ⟨?_, Or.inl⟩
  rintro (hold | ⟨hv, k, hk⟩)
  · exact hold
  · -- it held this work page before
    obtain ⟨w, hw⟩ := hall k (ht'.slots p k _ hk).2.1
    have hsame : some w = some (v % 2 ^ 9) := (h.steps.held p k w hw).symm.trans hk
    injection hsame with hsame
    exact OwnWorkPage.present hinv hq ⟨hv, k, hsame ▸ hw⟩

theorem Looked.pageUsed (h : Looked s s' p) (hg : Good s) (hp : Locked s p)
    (hall : HoldsAll s p) : pageUsed s' p = pageUsed s p := by
  funext v
  unfold Paging.pageUsed
  rw [h.same hg hall hp.1]

/-- Control slots that are left alone are pages that are. -/
theorem Untouched.looked (hst : Steps s s' id) (h : Inv s owner c) (h' : Inv s' owner' c)
    (hu : Untouched s s' c p) : Looked s s' p := by
  refine ⟨hst, fun q v hq => ?_⟩
  have hq' : q < s'.pagerCount := by rw [hst.count]; exact hq
  by_cases hv : InWindow v
  · by_cases hown : OwnWorkPage s' p v
    · exact ⟨fun _ => Or.inr hown, fun _ => hown.present h' hq'⟩
    · have hfree : ∀ k, (s'.pagers p).workPages k ≠ some (pte v) := by
        rw [pte_eq]
        exact fun k hk => hown ⟨(inWindow_iff v).mp hv, k, hk⟩
      rw [h'.translate_window hq' hv, h.translate_window hq hv, hu _ hfree]
      exact ⟨Or.inl, fun hor => hor.resolve_right hown⟩
  · rw [inWindow_iff, Nat.not_le] at hv
    have hview : translate s' q v = translate s q v := by
      rw [← translate_mod s' q (Nat.mod_mod v (2 ^ 36)), hst.view _ (views_translate s) q _ hq' hv]
      exact translate_mod s q (Nat.mod_mod v (2 ^ 36))
    rw [hview]
    exact ⟨Or.inl, fun hor => hor.resolve_right fun hown => Nat.not_le_of_lt hv hown.1⟩

/-- **A lookup sees the page as it leaves it.** -/
theorem getFlags_looked (hg : Good s) (hp : Locked s p) {virt : Nat} {flags : PageFlags}
    (hs : s.getFlags p virt = some (flags, s')) :
    Looked s s' p ∧ HoldsAll s' p
      ∧ flags.present = (translate s' p (virt >>> 12)).isSome := by
  unfold getFlags entryOf at hs
  simp only [Option.map_eq_some_iff, Option.bind_eq_bind, Option.bind_eq_some_iff, Prod.exists,
    pure, Option.some.injEq, Prod.mk.injEq] at hs
  obtain ⟨e, t, ⟨s₁, hs₁, w', s₂, hget, rfl, rfl⟩, rfl, rfl⟩ := hs
  obtain ⟨owner, c, hinv, ht⟩ := hg.tables
  obtain ⟨hst, -, -, w, pt, -, -, hw, hframe, hd⟩ := mapStructuresAt_steps hg hp hs₁
  obtain ⟨⟨owner', hinv'⟩, hu, hall⟩ :=
    mapStructuresAt_control hinv ht hp (hg.current p hp.1 hp.2) hs₁
  -- work page 3 is held already, so the second `getWorkpage` changes nothing
  unfold getWorkpage at hget
  rw [hw] at hget
  simp only [Option.some.injEq, Prod.mk.injEq] at hget
  obtain ⟨rfl, rfl⟩ := hget
  refine ⟨hu.looked hst hinv hinv', hall, ?_⟩
  rw [flags_present, hframe]
  unfold translate lookup
  rw [hd, Option.bind_some]

theorem bumpHints_pager (s : Paging) (p addr offset q : Nat) :
    ((s.bumpHints p addr offset).pagers q).pml4 = (s.pagers q).pml4
      ∧ ((s.bumpHints p addr offset).pagers q).workPages = (s.pagers q).workPages := by
  simp only [bumpHints]
  split
  · rename_i hq
    rw [hq.1]
    exact ⟨rfl, rfl⟩
  · exact ⟨rfl, rfl⟩

/-- Moving the hints is no lookup at all. -/
theorem bumpHints_looked (hg : Good s) (p : Nat) {addr offset : Nat} (haddr : addr % 2 ^ 12 = 0)
    (hoff : offset % 2 ^ 12 = 0) : Looked s (s.bumpHints p addr offset) p := by
  have hst := bumpHints_steps hg p haddr hoff
  obtain ⟨owner, c, hinv, -⟩ := hg.tables
  refine ⟨hst, fun q v hq => ?_⟩
  have hsame : translate (s.bumpHints p addr offset) q v = translate s q v := by
    show lookup next leaf s.mem ((s.bumpHints p addr offset).pagers q).pml4 (path v) (pte v) = _
    rw [(bumpHints_pager s p addr offset q).1]
    rfl
  rw [hsame]
  refine ⟨Or.inl, ?_⟩
  rintro (hold | ⟨hv, k, hk⟩)
  · exact hold
  · rw [(bumpHints_pager s p addr offset p).2] at hk
    exact OwnWorkPage.present hinv hq ⟨hv, k, hk⟩

end Looked

/-! ## §2. The search is a first-fit scan. -/

section Search

variable {s s' : Paging} {p : Nat}

theorem pageUsed_of_lt {v : Nat} (hv : v < 2 ^ 52) :
    pageUsed s p v = (translate s p v).isSome := by
  unfold pageUsed
  rw [decide_eq_false (Nat.not_le_of_lt hv), Bool.false_or]

theorem pageUsed_of_le {v : Nat} (hv : 2 ^ 52 ≤ v) : pageUsed s p v = true := by
  unfold pageUsed
  rw [decide_eq_true hv]
  rfl

/-- A page in the address space that is not the topmost one has a page above it. -/
theorem TopPresent.lt_of_unused (htop : TopPresent s p) {v : Nat} (hv : v < 2 ^ 52)
    (hunused : pageUsed s p v = false) : v + 1 < 2 ^ 52 := by
  by_contra hge
  rw [pageUsed_of_lt hv, show v = 2 ^ 52 - 1 by omega, htop] at hunused
  exact absurd hunused (by decide)

/-- The page in the way is not past the topmost one. -/
theorem TopPresent.found_lt (htop : TopPresent s p) {v n i : Nat} (hv : v < 2 ^ 52)
    (hfound : firstUsed (pageUsed s p) n v = some i) : v + i < 2 ^ 52 := by
  by_contra hge
  have hmin := firstUsed_min hfound (2 ^ 52 - 1 - v) (by omega)
  have hlast := htop.lt_of_unused (by omega) hmin
  omega

/-- **The inner loop is a probe**: it stops at the first used page. -/
theorem probeRange_firstUsed {v : Nat} {hit : Option Nat} :
    ∀ count m s, Good s → Locked s p → TopPresent s p → v + m < 2 ^ 52 →
      probeRange p (v * 0x1000) count (m * 0x1000) s = some (hit, s') →
      Looked s s' p ∧ (0 < count → HoldsAll s' p)
        ∧ hit = (firstUsed (pageUsed s' p) count (v + m)).map fun i => (m + i) * 0x1000 := by
  intro count
  induction count with
  | zero =>
      intro m s hg _ _ _ hs
      simp only [probeRange, Option.some.injEq, Prod.mk.injEq] at hs
      obtain ⟨rfl, rfl⟩ := hs
      exact ⟨Looked.refl hg p, fun h => absurd h (Nat.lt_irrefl 0), rfl⟩
  | succ count ih =>
      intro m s hg hp htop hv hs
      simp only [probeRange, Option.bind_eq_bind, Option.bind_eq_some_iff, Prod.exists] at hs
      obtain ⟨flags, s₁, hflags, hs⟩ := hs
      obtain ⟨hlook, hall, hpres⟩ := getFlags_looked hg hp hflags
      have hpage : ((v * 0x1000 + m * 0x1000) % 2 ^ 64) >>> 12 = v + m := by
        rw [Nat.shiftRight_eq_div_pow]
        omega
      rw [hpage, ← pageUsed_of_lt hv] at hpres
      rw [firstUsed_succ]
      split at hs
      · rename_i hused
        simp only [pure, Option.some.injEq, Prod.mk.injEq] at hs
        obtain ⟨rfl, rfl⟩ := hs
        rw [if_pos (hpres.symm.trans hused)]
        exact ⟨hlook, fun _ => hall, rfl⟩
      · rename_i hunused
        rw [Bool.not_eq_true] at hunused
        rw [hunused] at hpres
        -- the topmost page is present, so the next one is in the address space
        have hp₁ := hlook.steps.locked hp
        have htop₁ := hlook.topPresent hp htop
        have hnext := htop₁.lt_of_unused hv hpres.symm
        rw [← Nat.succ_mul] at hs
        obtain ⟨hlook', -, hres⟩ := ih (m + 1) s₁ hlook.steps.good hp₁ htop₁ hnext hs
        have hsame := hlook'.pageUsed hlook.steps.good hp₁ hall
        rw [hsame, ← hpres, if_neg (by decide)]
        refine ⟨hlook.trans hlook', fun _ => hlook'.holdsAll hall, ?_⟩
        have hshift : ((fun i => (m + i) * 0x1000) ∘ fun i => i + 1)
            = fun i => (m + 1 + i) * 0x1000 := by
          funext i
          rw [Function.comp_apply, Nat.add_comm i 1, Nat.add_assoc]
        rw [hres, hsame, Option.map_map, hshift, Nat.add_assoc]

/-- The address of a page a scan found, 0 for none. -/
def answerOf (found : Option Nat) : Nat := (found.map (· * 0x1000)).getD 0

/-- **The loop is the first-fit scan** of the pages as it leaves them. -/
theorem getFreeRangeLoop_scan {n r : Nat} (hn : 1 ≤ n) :
    ∀ fuel v s, Good s → Locked s p → TopPresent s p → 0 < v → v < 2 ^ 52 →
      getFreeRangeLoop p n fuel (v * 0x1000) s = some (r, s') →
      Looked s s' p ∧ HoldsAll s' p ∧ r = answerOf (scan (pageUsed s' p) n fuel v) := by
  intro fuel
  induction fuel with
  | zero => intro v s _ _ _ _ _ hs; exact absurd hs (by simp [getFreeRangeLoop])
  | succ fuel ih =>
      intro v s hg hp htop hpos hv hs
      simp only [getFreeRangeLoop] at hs
      rw [if_neg (by omega)] at hs
      simp only [Option.bind_eq_bind, Option.bind_eq_some_iff, Prod.exists] at hs
      obtain ⟨hit, s₁, hprobe, hs⟩ := hs
      rw [show (0 : Nat) = 0 * 0x1000 from rfl] at hprobe
      obtain ⟨hlook, hall, hhit⟩ := probeRange_firstUsed n 0 s hg hp htop hv hprobe
      have hall := hall hn
      have hg₁ := hlook.steps.good
      have hp₁ := hlook.steps.locked hp
      have htop₁ := hlook.topPresent hp htop
      rw [Nat.add_zero] at hhit
      unfold scan
      cases hfound : firstUsed (pageUsed s₁ p) n v with
      | none =>
          rw [hfound] at hhit
          subst hhit
          simp only [Option.map_none, pure, Option.some.injEq, Prod.mk.injEq] at hs
          obtain ⟨rfl, rfl⟩ := hs
          rw [hfound]
          exact ⟨hlook, hall, rfl⟩
      | some i =>
          rw [hfound] at hhit
          subst hhit
          simp only [Option.map_some, Nat.zero_add] at hs
          obtain ⟨hin, hused⟩ := firstUsed_eq_some hfound
          have hi := htop₁.found_lt hv hfound
          have hbump := bumpHints_looked hg₁ p (show v * 0x1000 % 2 ^ 12 = 0 by omega)
            (show i * 0x1000 % 2 ^ 12 = 0 by omega)
          have hlook₂ := hlook.trans hbump
          have hall₂ := hbump.holdsAll hall
          have hp₂ := hbump.steps.locked hp₁
          have hsame₂ := hbump.pageUsed hg₁ hp₁ hall
          by_cases hend : v + i + 1 = 2 ^ 52
          · -- the search has come round to address 0
            rw [show (v * 0x1000 + i * 0x1000 + 0x1000) % 2 ^ 64 = 0 by omega] at hs
            cases fuel with
            | zero => exact absurd hs (by simp [getFreeRangeLoop])
            | succ fuel =>
                simp only [getFreeRangeLoop, if_true, Option.some.injEq, Prod.mk.injEq] at hs
                obtain ⟨rfl, rfl⟩ := hs
                rw [hsame₂, hfound]
                refine ⟨hlook₂, hall₂, ?_⟩
                show 0 = answerOf (scan (pageUsed s₁ p) n (fuel + 1) (v + i + 1))
                rw [hend, scan_eq_none hn fun u hu => pageUsed_of_le hu]
                rfl
          · rw [show (v * 0x1000 + i * 0x1000 + 0x1000) % 2 ^ 64 = (v + i + 1) * 0x1000 by
              omega] at hs
            obtain ⟨hlook₃, hall₃, hr⟩ := ih (v + i + 1) _ hbump.steps.good hp₂
              (hbump.topPresent hp₁ htop₁) (by omega) (by omega) hs
            have hsame₃ := hlook₃.pageUsed hbump.steps.good hp₂ hall₂
            rw [hsame₃, hsame₂, hfound]
            refine ⟨hlook₂.trans hlook₃, hall₃, ?_⟩
            rw [hr, hsame₃, hsame₂]

end Search

/-! ## §3. The search returns. -/

/-- The page structures that do not exist on the way to the pages from `v₀` on. -/
def missing (s : Paging) (p v₀ : Nat) : Set (List Nat) :=
  {l | (∃ v, v₀ ≤ v ∧ v < 2 ^ 52 ∧ l <+: path v)
    ∧ descend next s.mem (s.pagers p).pml4 l = none}

/-- `palloc` has a frame for every one of them. -/
def EnoughFrames (s : Paging) (p v₀ : Nat) : Prop := Supplied s (missing s p v₀).ncard

section Progress

variable {s s' t : Paging} {owner owner' : Nat → Option Place} {c p v₀ : Nat}

theorem missing_finite (s : Paging) (p v₀ : Nat) : (missing s p v₀).Finite := by
  have hall : (⋃ v ∈ {v | v < 2 ^ 52}, {l | l ∈ (path v).inits}).Finite :=
    (Set.finite_lt_nat _).biUnion fun v _ => List.finite_toSet _
  refine hall.subset ?_
  rintro l ⟨⟨v, -, hv, hl⟩, -⟩
  simp only [Set.mem_iUnion]
  exact ⟨v, hv, (List.mem_inits l (path v)).mpr hl⟩

theorem Keeps.missing_subset (hk : Keeps s s' owner owner') (h : Inv s owner c)
    (hp : p < s.pagerCount) : missing s' p v₀ ⊆ missing s p v₀ := by
  intro l ⟨⟨v, hlo, hhi, hl⟩, hnone⟩
  refine ⟨⟨v, hlo, hhi, hl⟩, ?_⟩
  cases hd : TableTree.descend next s.mem (s.pagers p).pml4 l with
  | none => rfl
  | some g =>
      rw [hk.descend h hp (show l.length ≤ 3 from hl.length_le) hd] at hnone
      exact absurd hnone (by simp)

theorem EnoughFrames.of_subset (h : EnoughFrames s p v₀) (hsub : missing s' p v₀ ⊆ missing s p v₀)
    (hused : s'.used = s.used) (hsupply : s'.supply = s.supply) : EnoughFrames s' p v₀ :=
  (h.mono (Set.ncard_le_ncard hsub (missing_finite s p v₀))).congr hused hsupply

/-- **A level takes a frame only for a structure that was missing.** -/
theorem Reached.mapLevel_enough {l : List Nat} {w g i v : Nat} (h : Reached t owner c p l w g)
    (hl : l.length < 3) (hfew : FewLocked t) (hlo : v₀ ≤ v) (hhi : v < 2 ^ 52)
    (hpath : l ++ [i] <+: path v) (henough : EnoughFrames t p v₀) :
    ∃ w' t', t.mapLevel p (l.length + 1) w i = some (w', t') ∧ EnoughFrames t' p v₀ := by
  obtain ⟨w', s₁, hget⟩ := getWorkpage_some h.inv h.tidy hfew p (l.length + 1)
  have hacq := getWorkpage_spec h.inv hget
  have hframe : s₁.workFrame w = g := by rw [hacq.inv.workFrame_eq, hacq.address, h.shown.2]
  have hgc : g ≠ c := h.inv.inner_ne_control h.placed (by rw [depth_path]; exact hl)
  -- what exists after the level, however it returns
  have hafter : ∀ t', t.mapLevel p (l.length + 1) w i = some (w', t') →
      missing t' p v₀ ⊆ missing t p v₀ ∧ l ++ [i] ∉ missing t' p v₀ := by
    intro t' hs
    obtain ⟨o', f, hr, hk⟩ := h.mapLevel hl hs
    refine ⟨hk.missing_subset h.inv h.locked.1, fun hmem => ?_⟩
    exact absurd (hr.ends.symm.trans hmem.2) (by simp)
  by_cases hpres : (s₁.mem (s₁.workFrame w) i).present = true
  · have hlevel : t.mapLevel p (l.length + 1) w i = some (w', s₁.setControl w'
        (controlEntry (s₁.mem (s₁.workFrame w) i).address)) := by
      unfold Paging.mapLevel
      simp only [hget, Option.bind_eq_bind, Option.bind_some, if_pos hpres]
      rfl
    exact ⟨w', _, hlevel,
      henough.of_subset (hafter _ hlevel).1 hacq.used hacq.supply⟩
  · have hmiss : l ++ [i] ∈ missing t p v₀ := by
      refine ⟨⟨v, hlo, hhi, hpath⟩, ?_⟩
      rw [descend_concat, h.ends, Option.bind_some, ← hacq.rest g i hgc, ← hframe]
      exact next_eq_none (by simpa using hpres)
    have hpos : 0 < (missing t p v₀).ncard :=
      (Set.ncard_pos (missing_finite t p v₀)).mpr ⟨_, hmiss⟩
    have hsup₁ : Supplied s₁ ((missing t p v₀).ncard - 1 + 1) := by
      rw [Nat.sub_add_cancel hpos]
      exact henough.congr hacq.used hacq.supply
    obtain ⟨f, s₂, hpal, hsup₂⟩ := palloc_some hsup₁
    have hlevel : ∃ t', t.mapLevel p (l.length + 1) w i = some (w', t')
        ∧ t'.used = s₂.used ∧ t'.supply = s₂.supply := by
      unfold Paging.mapLevel
      simp only [hget, Option.bind_eq_bind, Option.bind_some, if_neg hpres, hpal]
      exact ⟨_, rfl, rfl, rfl⟩
    obtain ⟨t', hlevel, hused, hsupply⟩ := hlevel
    obtain ⟨hsub, hgone⟩ := hafter t' hlevel
    have hless : (missing t' p v₀).ncard < (missing t p v₀).ncard :=
      Set.ncard_lt_ncard ⟨hsub, fun hback => hgone (hback hmiss)⟩ (missing_finite t p v₀)
    exact ⟨w', t', hlevel, (hsup₂.mono (by omega)).congr hused hsupply⟩

theorem mapStructuresAt_enough (hg : Good s) (hp : Locked s p) (hfew : FewLocked s) {v : Nat}
    (hlo : v₀ ≤ v) (hhi : v < 2 ^ 52) (henough : EnoughFrames s p v₀) :
    ∃ s', s.mapStructuresAt p v = some s' ∧ EnoughFrames s' p v₀ := by
  refine mapStructuresAt_returns (R := fun _ t => EnoughFrames t p v₀) hg hp hfew ?_ ?_
  · intro w t hs hused hsupply
    obtain ⟨owner, c, hinv, ht⟩ := hg.tables
    obtain ⟨-, hk⟩ := mapPml4_reached hinv ht hp hs
    exact henough.of_subset (hk.missing_subset hinv hp.1) hused hsupply
  · intro t owner c l w g i hr hl hfew' hpath henough'
    exact hr.mapLevel_enough hl hfew' hlo hhi hpath henough'

theorem getFlags_enough (hg : Good s) (hp : Locked s p) (hfew : FewLocked s) {virt : Nat}
    (hlo : v₀ ≤ virt >>> 12) (hhi : virt >>> 12 < 2 ^ 52) (henough : EnoughFrames s p v₀) :
    ∃ flags s', s.getFlags p virt = some (flags, s') ∧ EnoughFrames s' p v₀ := by
  obtain ⟨s₁, hs₁, henough₁⟩ := mapStructuresAt_enough hg hp hfew hlo hhi henough
  obtain ⟨-, -, -, w, pt, -, -, hw, -, -⟩ := mapStructuresAt_steps hg hp hs₁
  have hget : s₁.getWorkpage p 3 = some (w, s₁) := by
    unfold getWorkpage
    rw [hw]
  unfold getFlags entryOf
  simp only [hs₁, hget, Option.bind_eq_bind, Option.bind_some]
  exact ⟨_, s₁, rfl, henough₁⟩

/-- From the window on no page structure is missing. -/
theorem Inv.missing_window (h : Inv s owner c) (hp : p < s.pagerCount) :
    missing s p (2 ^ 52 - 2 ^ 9) = ∅ := by
  refine Set.eq_empty_of_forall_notMem ?_
  intro l ⟨⟨v, hlo, hhi, rest, hpath⟩, hnone⟩
  have hv : InWindow v := by
    rw [inWindow_iff]
    unfold windowPage
    omega
  have hd := h.descend_window hp
  rw [← show path v = [511, 511, 511] from hv, ← hpath, descend_append, hnone] at hd
  exact absurd hd (by simp)

theorem Steps.fewLocked {f : Flat → Flat} (h : Steps s s' f) (hfew : FewLocked s) :
    FewLocked s' := by
  obtain ⟨locked, hcard, hlocked⟩ := hfew
  refine ⟨locked, hcard, fun q hq hl => ?_⟩
  rw [h.count] at hq
  rw [h.lockDepth] at hl
  exact hlocked q hq hl

theorem EnoughFrames.bumpHints (h : EnoughFrames s p v₀) (addr offset : Nat) :
    EnoughFrames (s.bumpHints p addr offset) p v₀ := by
  refine h.of_subset ?_ rfl rfl
  intro l ⟨hl, hnone⟩
  rw [(bumpHints_pager s p addr offset p).1] at hnone
  exact ⟨hl, hnone⟩

theorem probeRange_enough {v : Nat} (hlo : v₀ ≤ v) :
    ∀ count m s, Good s → Locked s p → TopPresent s p → FewLocked s → v + m < 2 ^ 52 →
      EnoughFrames s p v₀ →
      ∃ hit s', probeRange p (v * 0x1000) count (m * 0x1000) s = some (hit, s')
        ∧ EnoughFrames s' p v₀ := by
  intro count
  induction count with
  | zero => intro m s _ _ _ _ _ henough; exact ⟨none, s, rfl, henough⟩
  | succ count ih =>
      intro m s hg hp htop hfew hv henough
      have hpage : ((v * 0x1000 + m * 0x1000) % 2 ^ 64) >>> 12 = v + m := by
        rw [Nat.shiftRight_eq_div_pow]
        omega
      have hlo' : v₀ ≤ ((v * 0x1000 + m * 0x1000) % 2 ^ 64) >>> 12 := by
        rw [hpage]
        exact Nat.le_trans hlo (Nat.le_add_right v m)
      obtain ⟨flags, s₁, hflags, henough₁⟩ := getFlags_enough hg hp hfew hlo'
        (by rw [hpage]; exact hv) henough
      obtain ⟨hlook, -, hpres⟩ := getFlags_looked hg hp hflags
      rw [hpage, ← pageUsed_of_lt hv] at hpres
      simp only [probeRange, hflags, Option.bind_eq_bind, Option.bind_some]
      by_cases hused : flags.present = true
      · rw [if_pos hused]
        exact ⟨_, s₁, rfl, henough₁⟩
      · rw [if_neg hused, ← Nat.succ_mul]
        rw [Bool.not_eq_true] at hused
        have htop₁ := hlook.topPresent hp htop
        exact ih (m + 1) s₁ hlook.steps.good (hlook.steps.locked hp) htop₁
          (hlook.steps.fewLocked hfew) (htop₁.lt_of_unused hv (hpres.symm.trans hused)) henough₁

/-- **The search ends**: every round passes a page, and the top stops it. -/
theorem getFreeRangeLoop_returns {n : Nat} :
    ∀ fuel v s, Good s → Locked s p → TopPresent s p → FewLocked s → 0 < v → v₀ ≤ v →
      v < 2 ^ 52 → 2 ^ 52 - v < fuel → EnoughFrames s p v₀ →
      ∃ r s', getFreeRangeLoop p n fuel (v * 0x1000) s = some (r, s') := by
  intro fuel
  induction fuel with
  | zero => intro v s _ _ _ _ _ _ _ hfuel; exact absurd hfuel (Nat.not_lt_zero _)
  | succ fuel ih =>
      intro v s hg hp htop hfew hpos hlo hv hfuel henough
      obtain ⟨hit, s₁, hprobe, henough₁⟩ :=
        probeRange_enough hlo n 0 s hg hp htop hfew hv henough
      obtain ⟨hlook, -, hhit⟩ := probeRange_firstUsed n 0 s hg hp htop hv hprobe
      rw [Nat.zero_mul] at hprobe
      have hg₁ := hlook.steps.good
      have hp₁ := hlook.steps.locked hp
      simp only [getFreeRangeLoop]
      rw [if_neg (by omega)]
      simp only [hprobe, Option.bind_eq_bind, Option.bind_some]
      cases hit with
      | none => exact ⟨v * 0x1000, s₁, rfl⟩
      | some offset =>
          obtain ⟨i, hfound, rfl⟩ := Option.map_eq_some_iff.mp hhit.symm
          have hi := (hlook.topPresent hp htop).found_lt hv hfound
          have hbump := bumpHints_looked hg₁ p (show v * 0x1000 % 2 ^ 12 = 0 by omega)
            (show (0 + i) * 0x1000 % 2 ^ 12 = 0 by omega)
          have hfew₁ := hlook.steps.fewLocked hfew
          have henough₂ := henough₁.bumpHints (v * 0x1000) ((0 + i) * 0x1000)
          dsimp only
          by_cases hend : v + i + 1 = 2 ^ 52
          · rw [show (v * 0x1000 + (0 + i) * 0x1000 + 0x1000) % 2 ^ 64 = 0 by omega]
            cases fuel with
            | zero => omega
            | succ fuel => exact ⟨0, _, by simp only [getFreeRangeLoop, if_true]; rfl⟩
          · rw [show (v * 0x1000 + (0 + i) * 0x1000 + 0x1000) % 2 ^ 64 = (v + i + 1) * 0x1000 by
              omega]
            exact ih (v + i + 1) _ hbump.steps.good (hbump.steps.locked hp₁)
              (hbump.topPresent hp₁ (hlook.topPresent hp htop)) (hbump.steps.fewLocked hfew₁)
              (by omega) (by omega) (by omega) (by omega) henough₂

end Progress

/-! ## §4. What `getFreeRange` answers. -/

/-- What a search for `n` pages from `start` on may answer: page addresses
behind which none of the `n` pages is present. -/
def FreeFrom (s : Paging) (p start n : Nat) : Set Nat :=
  {a | start ≤ a ∧ a % 2 ^ 12 = 0 ∧ FreeRun (pageUsed s p) n (a / 2 ^ 12)}

section Answers

variable {s s' : Paging} {p start n r : Nat}

/-- **The answer of the scan**, on addresses. -/
theorem answerOf_isLeast (hn : 1 ≤ n) {v fuel : Nat} (hfuel : 2 ^ 52 - v < fuel) :
    IsLeast (FreeFrom s p (v * 0x1000) n) (answerOf (scan (pageUsed s p) n fuel v))
      ∨ answerOf (scan (pageUsed s p) n fuel v) = 0 ∧ FreeFrom s p (v * 0x1000) n = ∅ := by
  cases hscan : scan (pageUsed s p) n fuel v with
  | some u =>
      obtain ⟨hle, hfree, hmin⟩ := scan_sound hscan
      have hpage : u * 0x1000 / 2 ^ 12 = u := Nat.mul_div_cancel u (by decide)
      refine Or.inl ⟨⟨Nat.mul_le_mul_right _ hle, ?_, ?_⟩, ?_⟩
      · show u * 0x1000 % 2 ^ 12 = 0
        omega
      · show FreeRun (pageUsed s p) n (u * 0x1000 / 2 ^ 12)
        rw [hpage]
        exact hfree
      · intro a ⟨hstart, hal, hrun⟩
        show u * 0x1000 ≤ a
        by_contra hlt
        exact hmin (a / 2 ^ 12) (by omega) (by omega) hrun
  | none =>
      refine Or.inr ⟨rfl, Set.eq_empty_of_forall_notMem ?_⟩
      rintro a ⟨hstart, -, hrun⟩
      -- a free range lies in the address space, so the scan would have reached it
      have hlt : a / 2 ^ 12 < 2 ^ 52 := by
        by_contra hge
        have hfirst := hrun 0 hn
        rw [Nat.add_zero, pageUsed_of_le (Nat.le_of_not_lt hge)] at hfirst
        exact absurd hfirst (by decide)
      exact scan_eq_none_imp hscan (a / 2 ^ 12) (by omega) (by omega) hrun

/-- **What a search leaves**, of any length: it has looked, and the range it
answers lies in the address space. -/
theorem getFreeRange_looked (hg : Good s) (hp : Locked s p) (htop : TopPresent s p)
    (hal : start % 2 ^ 12 = 0) (hpos : start ≠ 0) (h64 : start < 2 ^ 64) (h52 : n < 2 ^ 52)
    (hs : s.getFreeRange p start n = some (r, s')) :
    Looked s s' p ∧ (r ≠ 0 → start ≤ r ∧ r % 2 ^ 12 = 0 ∧ r + n * 2 ^ 12 ≤ 2 ^ 64) := by
  rw [getFreeRange_eq s p start h52] at hs
  obtain ⟨v, rfl⟩ : ∃ v, start = v * 0x1000 := ⟨start / 0x1000, by omega⟩
  rcases Nat.eq_zero_or_pos n with rfl | hn
  · -- no page is looked at
    simp only [getFreeRangeLoop, hpos, if_false, probeRange, Option.bind_eq_bind,
      Option.bind_some, pure, Option.some.injEq, Prod.mk.injEq] at hs
    obtain ⟨rfl, rfl⟩ := hs
    exact ⟨Looked.refl hg p, fun _ => ⟨Nat.le_refl _, hal, by omega⟩⟩
  · obtain ⟨hlook, -, rfl⟩ :=
      getFreeRangeLoop_scan hn _ v s hg hp htop (by omega) (by omega) hs
    refine ⟨hlook, fun hr => ?_⟩
    rcases answerOf_isLeast hn (show 2 ^ 52 - v < (2 ^ 64 - v * 0x1000) / 0x1000 + 2 by omega)
      with hleast | ⟨hzero, -⟩
    · obtain ⟨hle, halr, hrun⟩ := hleast.1
      refine ⟨hle, halr, ?_⟩
      -- its last page is in the address space
      by_contra hgt
      have hlast := hrun (n - 1) (by omega)
      rw [pageUsed_of_le (by omega)] at hlast
      exact absurd hlast (by decide)
    · exact absurd hzero hr

/-- **`getFreeRange` IS AN EXACT SEARCH.**  Under a control page that shows
itself it returns, given frames for the page structures that are missing; and
what it returns is the lowest free range at or above `start`, or 0 if there is
none.  No page comes or goes, but that the work pages of the pager become
present if it did not have all of them. -/
theorem getFreeRange_exact (hg : Good s) (hp : Locked s p) (htop : TopPresent s p)
    (hal : start % 2 ^ 12 = 0) (h64 : start < 2 ^ 64) (hn : 1 ≤ n) (h52 : n < 2 ^ 52) :
    (FewLocked s → EnoughFrames s p (start / 2 ^ 12) →
        ∃ r s', s.getFreeRange p start n = some (r, s'))
      ∧ ∀ r s', s.getFreeRange p start n = some (r, s') →
        (start = 0 → r = 0)
        ∧ (start ≠ 0 → IsLeast (FreeFrom s' p start n) r ∨ r = 0 ∧ FreeFrom s' p start n = ∅)
        ∧ (∀ q v, q < s.pagerCount → ((translate s' q v).isSome = true
            ↔ (translate s q v).isSome = true ∨ start ≠ 0 ∧ OwnWorkPage s' p v))
        ∧ (HoldsAll s p → ∀ q v, q < s.pagerCount →
            (translate s' q v).isSome = (translate s q v).isSome) := by
  rw [getFreeRange_eq s p start h52]
  obtain ⟨v, rfl⟩ : ∃ v, start = v * 0x1000 := ⟨start / 0x1000, by omega⟩
  have hfuel : 2 ^ 52 - v < (2 ^ 64 - v * 0x1000) / 0x1000 + 2 := by omega
  by_cases hv : v = 0
  · -- 0 says that nothing was found, also at the start
    subst hv
    refine ⟨fun _ _ => ⟨0, s, rfl⟩, fun r s' hs => ?_⟩
    simp only [getFreeRangeLoop, Nat.zero_mul, if_true, Option.some.injEq, Prod.mk.injEq] at hs
    obtain ⟨rfl, rfl⟩ := hs
    exact ⟨fun _ => rfl, fun h0 => absurd (Nat.zero_mul _) h0,
      fun q v _ => ⟨Or.inl, fun hor => hor.resolve_right fun h => h.1 (Nat.zero_mul _)⟩,
      fun _ _ _ _ => rfl⟩
  · have hstart : v * 0x1000 ≠ 0 := by omega
    refine ⟨fun hfew henough => ?_, fun r s' hs => ?_⟩
    · rw [show v * 0x1000 / 2 ^ 12 = v by omega] at henough
      exact getFreeRangeLoop_returns _ v s hg hp htop hfew (by omega) (Nat.le_refl v) (by omega)
        hfuel henough
    · obtain ⟨hlook, -, rfl⟩ := getFreeRangeLoop_scan hn _ v s hg hp htop (by omega) (by omega) hs
      refine ⟨fun h0 => absurd h0 hstart, fun _ => answerOf_isLeast hn hfuel, ?_,
        fun hall q u hq => hlook.same hg hall hq⟩
      intro q u hq
      rw [hlook.shown q u hq]
      exact or_congr_right ⟨fun h => ⟨hstart, h⟩, And.right⟩

end Answers

/-- The machine of `demoInit` with its pager locked. -/
def demoLocked : Option Paging := demoInit.map fun s => s.lock 0

theorem demoLocked_run {s : Paging} (hs : demoLocked = some s) :
    ∃ s₀, Booted s₀ ∧ Run PagingStep s₀ [.lock 0] s ∧ s.pagerCount = 1 ∧ Locked s 0 := by
  unfold demoLocked at hs
  rw [Option.map_eq_some_iff] at hs
  obtain ⟨s₀, hs₀, rfl⟩ := hs
  have hcount := (init_good hs₀).2.1
  have hlt : 0 < s₀.pagerCount := by rw [hcount]; decide
  exact ⟨s₀, ⟨_, _, _, _, _, _, hs₀⟩, Run.init.step (.lock hlt), hcount, hlt, Nat.succ_pos _⟩

theorem getFreeRange_exact_window :
    ∃ s₀ s r s', Booted s₀ ∧ Run PagingStep s₀ [.lock 0] s
      ∧ s.getFreeRange 0 0xFFFFFFFFFFE00000 1 = some (r, s')
      ∧ (IsLeast (FreeFrom s' 0 0xFFFFFFFFFFE00000 1) r
        ∨ r = 0 ∧ FreeFrom s' 0 0xFFFFFFFFFFE00000 1 = ∅)
      ∧ ∀ q v, q < s.pagerCount → ((translate s' q v).isSome = true
          ↔ (translate s q v).isSome = true
            ∨ 0xFFFFFFFFFFE00000 ≠ 0 ∧ OwnWorkPage s' 0 v) := by
  have htop : (demoLocked.map fun s => (translate s 0 (2 ^ 52 - 1)).isSome) = some true := by
    decide +kernel
  rw [Option.map_eq_some_iff] at htop
  obtain ⟨s, hs, htop⟩ := htop
  obtain ⟨s₀, hboot, hrun, hcount, hp⟩ := demoLocked_run hs
  have hg := reachable_good hboot hrun
  obtain ⟨owner, c, hinv, -⟩ := hg.tables
  have hfew : FewLocked s := by
    refine ⟨{0}, by decide, fun q hq _ => Finset.mem_singleton.mpr ?_⟩
    omega
  have henough : EnoughFrames s 0 (0xFFFFFFFFFFE00000 / 2 ^ 12) := by
    unfold EnoughFrames
    rw [show 0xFFFFFFFFFFE00000 / 2 ^ 12 = 2 ^ 52 - 2 ^ 9 from by decide,
      hinv.missing_window hp.1, Set.ncard_empty]
    exact ⟨Nat.zero_le _, List.nodup_nil, fun f hf => absurd hf (by simp)⟩
  obtain ⟨hreturns, hexact⟩ := getFreeRange_exact hg hp htop
    (show 0xFFFFFFFFFFE00000 % 2 ^ 12 = 0 by decide) (by decide) (Nat.le_refl 1) (by decide)
  obtain ⟨r, s', hs'⟩ := hreturns hfew henough
  obtain ⟨-, hleast, hshown, -⟩ := hexact r s' hs'
  exact ⟨s₀, s, r, s', hboot, hrun, hs', hleast (by decide), hshown⟩

/-- **The search is not invisible**, and not exact everywhere.  Its first
lookup takes work pages, whose addresses become present; address 0 ends a
search that starts there, whatever is free above; and `length << 12` is 0 for
2^52 pages, so that none is looked at, the present topmost one included. -/
theorem search_takes_work_pages :
    (¬ ∀ s₀ hist s, Booted s₀ → Run PagingStep s₀ hist s →
        ∀ p start n r s', Locked s p → TopPresent s p → start % 2 ^ 12 = 0 → start < 2 ^ 64 →
          1 ≤ n → s.getFreeRange p start n = some (r, s') →
          (IsLeast (FreeFrom s p start n) r ∨ r = 0 ∧ FreeFrom s p start n = ∅)
            ∧ ∀ v, (translate s' p v).isSome = (translate s p v).isSome)
      ∧ (demoLocked.bind fun s => do
          let s ← s.map 0 0x500000 0x1000 1 demoFlags
          let (r, s') ← s.getFreeRange 0 0 2
          return (r, pageUsed s' 0 1, pageUsed s' 0 2, pageUsed s' 0 3))
        = some (0, true, false, false)
      ∧ (demoLocked.bind fun s => do
          let (r, s') ← s.getFreeRange 0 0x1000 (2 ^ 52)
          return (r, pageUsed s' 0 (2 ^ 52 - 1)))
        = some (0x1000, true) := by
  refine ⟨?_, by decide +kernel, by decide +kernel⟩
  intro hclaim
  have hseen : (demoLocked.bind fun s => (s.getFreeRange 0 0x1000 1).map fun (_, s') =>
      ((translate s 0 (2 ^ 52 - 1)).isSome, (translate s 0 windowPage).isSome,
        (translate s' 0 windowPage).isSome))
      = some (true, false, true) := by
    decide +kernel
  rw [Option.bind_eq_some_iff] at hseen
  obtain ⟨s, hs, hseen⟩ := hseen
  rw [Option.map_eq_some_iff] at hseen
  obtain ⟨⟨r, s'⟩, hfind, hseen⟩ := hseen
  simp only [Prod.mk.injEq] at hseen
  obtain ⟨htop, hbefore, hafter⟩ := hseen
  obtain ⟨s₀, hboot, hrun, -, hp⟩ := demoLocked_run hs
  obtain ⟨-, hsame⟩ := hclaim s₀ _ s hboot hrun 0 0x1000 1 r s' hp htop (by decide) (by decide)
    (Nat.le_refl 1) hfind
  rw [hsame windowPage, hbefore] at hafter
  exact absurd hafter (by decide)

end Paging

end MierOS.Memory.Virtual
