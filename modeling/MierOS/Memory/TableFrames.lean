/-
  MierOS.Memory.TableFrames
  **WHICH FRAMES THE PAGER TAKES FOR ITSELF.**

  A frame is a page structure if a walk from the PML4 of some pager meets it.
  The calls of a pager take frames for page structures only, and the structures
  that exist stay; so the frames in use for anything else (`DataFrame`) are the
  same after the call.  And no call writes the last slot of the control page,
  which is how the topmost page of the address space stays present.

  * `mapStructuresAt_accounts`, `map_accounts`, ... — one for each call,
  * `reachable_topPresent`: in every state the pagers can reach the topmost
    page is present,
  * `unlock_present`: `unlock` takes back the work pages and nothing else.
-/
import MierOS.Memory.FreeRange

namespace MierOS.Memory.Virtual

open Lib Lib.TableTree

namespace Paging

/-! ## §1. Page structures and other frames. -/

/-- A walk from a PML4 meets the frame `f`. -/
def IsTable (s : Paging) (f : Nat) : Prop :=
  ∃ q l, q < s.pagerCount ∧ l.length ≤ 3 ∧ descend next s.mem (s.pagers q).pml4 l = some f

/-- The frame `f` is in use, and not for a page structure. -/
def DataFrame (s : Paging) (f : Nat) : Prop := s.used f = true ∧ ¬ IsTable s f

/-- **Frames are accounted for** between `s` and `s'`: those that were taken are
page structures, and those that became page structures were free. -/
structure Accounts (s s' : Paging) : Prop where
  kept : ∀ f, IsTable s f → IsTable s' f
  fresh : ∀ f, IsTable s' f → IsTable s f ∨ s.used f = false
  taken : ∀ f, s'.used f = true → s.used f = true ∨ IsTable s' f
  used : ∀ f, s.used f = true → s'.used f = true
  window : s'.windowTable = s.windowTable
  top : s'.mem s.windowTable 511 = s.mem s.windowTable 511

section Accounts

variable {s s' s'' t t' : Paging} {owner owner' : Nat → Option Place} {c p : Nat}

theorem Accounts.refl (s : Paging) : Accounts s s :=
  ⟨fun _ h => h, fun _ h => Or.inl h, fun _ h => Or.inl h, fun _ h => h, rfl, rfl⟩

theorem Accounts.trans (h : Accounts s s') (h' : Accounts s' s'') : Accounts s s'' where
  kept f hf := h'.kept f (h.kept f hf)
  fresh f hf := by
    rcases h'.fresh f hf with htable | hfree
    · exact h.fresh f htable
    · right
      by_contra hused
      rw [Bool.not_eq_false] at hused
      rw [h.used f hused] at hfree
      exact absurd hfree (by decide)
  taken f hf := by
    rcases h'.taken f hf with hused | htable
    · exact (h.taken f hused).imp_right (h'.kept f)
    · exact Or.inr htable
  used f hf := h'.used f (h.used f hf)
  window := h'.window.trans h.window
  top := by
    have htop := h'.top
    rw [h.window] at htop
    exact htop.trans h.top

/-- **The frames in use for anything else are the same.** -/
theorem Accounts.dataFrame (h : Accounts s s') (f : Nat) : DataFrame s' f ↔ DataFrame s f := by
  constructor
  · intro ⟨hused, hnot⟩
    exact ⟨(h.taken f hused).resolve_right hnot, fun htable => hnot (h.kept f htable)⟩
  · intro ⟨hused, hnot⟩
    refine ⟨h.used f hused, fun htable => ?_⟩
    rcases h.fresh f htable with hold | hfree
    · exact hnot hold
    · rw [hused] at hfree
      exact absurd hfree (by decide)

theorem IsTable.placed (h : Inv s owner c) {f : Nat} (hf : IsTable s f) :
    ∃ l, owner f = some l := by
  obtain ⟨q, l, hq, hl, hd⟩ := hf
  exact ⟨_, descend_owner depth_child h.labelling l _ _ f (h.root q hq)
    (show 0 + l.length ≤ 3 by omega) hd⟩

/-- What `palloc` takes is a frame for something else, until it is linked. -/
theorem palloc_dataFrame (hg : Good s) {f : Nat} (hs : s.palloc = some (f, s')) (x : Nat) :
    DataFrame s' x ↔ DataFrame s x ∨ x = f := by
  obtain ⟨owner, c, h, -⟩ := hg.tables
  obtain ⟨hfree, -, rfl⟩ := palloc_cases hs
  -- what was free is no page structure, and nothing links it yet
  have hnot : ¬ IsTable s f := by
    intro htable
    obtain ⟨l, hown⟩ := htable.placed h
    rw [h.unused_unplaced hfree] at hown
    exact absurd hown (by simp)
  show (if x = f then true else s.used x) = true ∧ ¬ IsTable s x ↔ _
  by_cases hx : x = f
  · subst hx
    rw [if_pos rfl]
    exact ⟨fun _ => Or.inr rfl, fun _ => ⟨rfl, hnot⟩⟩
  · rw [if_neg hx]
    exact ⟨Or.inl, fun hor => hor.resolve_right hx⟩

/-- Writing page tables, control slots and pagers moves no page structure. -/
theorem Inv.isTable_congr (h : Inv s owner c) (hcount : s'.pagerCount = s.pagerCount)
    (hpml4 : ∀ q, (s'.pagers q).pml4 = (s.pagers q).pml4)
    (hinner : ∀ f l i, owner f = some l → depth l < 3 → s'.mem f i = s.mem f i) (f : Nat) :
    IsTable s' f ↔ IsTable s f := by
  -- a walk reads the inner structures only
  have hsame : ∀ q l, q < s.pagerCount → l.length ≤ 3 →
      descend next s'.mem (s'.pagers q).pml4 l = descend next s.mem (s.pagers q).pml4 l := by
    intro q l hq hl
    rw [hpml4]
    exact descend_of_agree depth_child h.labelling hinner l _ _ (h.root q hq)
      (show 0 + l.length ≤ 3 by omega)
  constructor
  · intro ⟨q, l, hq, hl, hd⟩
    rw [hcount] at hq
    exact ⟨q, l, hq, hl, by rw [← hsame q l hq hl]; exact hd⟩
  · intro ⟨q, l, hq, hl, hd⟩
    exact ⟨q, l, by rw [hcount]; exact hq, hl, by rw [hsame q l hq hl]; exact hd⟩

/-- A change below the inner structures takes no frame. -/
theorem Inv.accounts (h : Inv s owner c) (h' : Inv s' owner' c)
    (hcount : s'.pagerCount = s.pagerCount)
    (hpml4 : ∀ q, (s'.pagers q).pml4 = (s.pagers q).pml4)
    (hinner : ∀ f l i, owner f = some l → depth l < 3 → s'.mem f i = s.mem f i)
    (hused : s'.used = s.used) (htop : s'.mem c 511 = s.mem c 511) : Accounts s s' where
  kept f := (h.isTable_congr hcount hpml4 hinner f).mpr
  fresh f hf := Or.inl ((h.isTable_congr hcount hpml4 hinner f).mp hf)
  taken f hf := Or.inl (by rw [← hused]; exact hf)
  used f hf := by rw [hused]; exact hf
  window := by rw [h'.windowTable_eq, h.windowTable_eq]
  top := by rw [h.windowTable_eq]; exact htop

/-- Nor does a change to locks, hints and work pages. -/
theorem accounts_of_pagers (hmem : s'.mem = s.mem) (hused : s'.used = s.used)
    (hpd1 : s'.kernelPd1 = s.kernelPd1) (hcount : s'.pagerCount = s.pagerCount)
    (hpml4 : ∀ q, (s'.pagers q).pml4 = (s.pagers q).pml4) : Accounts s s' := by
  have htable : ∀ f, IsTable s' f ↔ IsTable s f := by
    intro f
    unfold IsTable
    simp only [hmem, hcount, hpml4]
  have hwindow : s'.windowTable = s.windowTable := by
    unfold windowTable
    rw [hmem, hpd1]
  refine ⟨fun f => (htable f).mpr, fun f hf => Or.inl ((htable f).mp hf), ?_, ?_, hwindow, ?_⟩
  · exact fun f hf => Or.inl (by rw [← hused]; exact hf)
  · exact fun f hf => by rw [hused]; exact hf
  · rw [hmem]

/-! ## §2. One write. -/

theorem Inv.setControl_accounts (h : Inv s owner c) {w : Nat} {e : PageStructuresEntry}
    (hw : w < 511) (hheld : e.present = true ∨ ∀ q k, (s.pagers q).workPages k ≠ some w) :
    Accounts s (s.setControl w e) := by
  refine h.accounts (h.setControl hw hheld).1 rfl (fun _ => rfl) ?_ rfl ?_
  · intro f l i hf hl
    rw [setControl_mem h, if_neg (fun hc => h.inner_ne_control hf hl hc.1)]
  · rw [setControl_mem h, if_neg (fun hc => absurd hc.2 (by omega))]

theorem Acquired.accounts {slot w : Nat} (h : Acquired s s' owner c p slot w) (hinv : Inv s owner c)
    (hs : s.getWorkpage p slot = some (w, s')) : Accounts s s' := by
  refine hinv.accounts h.inv h.keeps.count h.keeps.pml4 ?_ h.used ?_
  · exact fun f l i hf hl => h.rest f i (hinv.inner_ne_control hf hl)
  · refine getWorkpage_untouched hinv hs 511 fun k hk => ?_
    exact Nat.lt_irrefl 511 (h.inv.work p k 511 hk).1

theorem Inv.setLeaf_accounts (h : Inv s owner c) {v pt i : Nat} (hp : p < s.pagerCount)
    (hv : v % 2 ^ 36 < windowPage)
    (hd : descend next s.mem (s.pagers p).pml4 (path v) = some pt) (e : PageStructuresEntry) :
    Accounts s (s.setEntry pt i e) := by
  have hwin : ¬ InWindow v := by
    rw [inWindow_iff]
    omega
  have hne : pt ≠ c := by
    rintro rfl
    exact h.descend_ne_control hp hwin hd
  have hplace := h.place_of_descend hp hd
  refine h.accounts (h.setLeaf hplace rfl hne) rfl (fun _ => rfl) ?_ rfl ?_
  · intro f l j hf hl
    rw [setEntry_mem, if_neg]
    rintro ⟨rfl, -⟩
    rw [hplace, Option.some.injEq] at hf
    rw [← hf] at hl
    exact absurd hl (Nat.lt_irrefl 3)
  · rw [setEntry_mem, if_neg (fun hc => hne hc.1.symm)]

/-- **Linking a fresh structure** below one that a walk meets. -/
theorem Inv.linkFresh_accounts (h : Inv s owner c) {g j f : Nat} {l : List Nat}
    (hp : p < s.pagerCount) (hends : descend next s.mem (s.pagers p).pml4 l = some g)
    (hg : owner g = some (l.foldl child (some p, []))) (hl : l.length < 3)
    (hj : next (s.mem g j) = none) (hf : s.used f = false) (hf40 : f < 2 ^ 40) :
    Accounts s (s.linkFresh g j f) := by
  have hdepth : depth (l.foldl child (some p, [])) < 3 := by rw [depth_path]; exact hl
  obtain ⟨hinv, hk⟩ := h.linkFresh hg hdepth hj hf hf40
  have hlink := h.linked hg hj hf hf40
  -- the walk that met `g` goes one step further now
  have hfresh : IsTable (s.linkFresh g j f) f := by
    refine ⟨p, l ++ [j], hp, by rw [List.length_append, List.length_singleton]; omega, ?_⟩
    rw [descend_concat, hk.descend h hp (Nat.le_of_lt hl) hends]
    exact hlink.slotFull
  refine ⟨?_, ?_, ?_, ?_, ?_, ?_⟩
  · intro x ⟨q, path, hq, hlen, hd⟩
    exact ⟨q, path, hq, hlen, hk.descend h hq hlen hd⟩
  · intro x ⟨q, path, hq, hlen, hd⟩
    -- a walk that takes the new link ends in `f`
    rcases descend_link depth_child h.labelling (h.unused_unplaced hf) hlink path _ _ x
        (h.root q hq) (show 0 + path.length ≤ 3 by omega) hd with hold | rfl
    · exact Or.inl ⟨q, path, hq, hlen, hold⟩
    · exact Or.inr hf
  · intro x hx
    by_cases hxf : x = f
    · exact Or.inr (hxf ▸ hfresh)
    · have hsame : (s.linkFresh g j f).used x = s.used x := if_neg hxf
      exact Or.inl (hsame ▸ hx)
  · intro x hx
    show (if x = f then true else s.used x) = true
    rw [hx, ite_self]
  · rw [hinv.windowTable_eq, h.windowTable_eq]
  · rw [h.windowTable_eq]
    exact h.linkFresh_control hg hdepth hf 511

/-! ## §3. The walk. -/

theorem mapPml4_accounts (h : Inv s owner c) {w : Nat} (hs : s.mapPml4 p = some (w, s')) :
    Accounts s s' := by
  unfold mapPml4 at hs
  split at hs
  · rw [Option.some.injEq, Prod.mk.injEq] at hs
    rw [← hs.2]
    exact Accounts.refl s
  · obtain ⟨⟨w', s₁⟩, hget, hs⟩ := Option.map_eq_some_iff.mp hs
    obtain ⟨rfl, rfl⟩ := Prod.mk.inj hs
    have hacq := getWorkpage_spec h hget
    have hlt := (hacq.inv.work p 0 w' hacq.shown).1
    exact (hacq.accounts h hget).trans
      (hacq.inv.setControl_accounts hlt (Or.inl (controlEntry_present _)))

theorem Reached.accounts {l : List Nat} {w w' g i : Nat} (h : Reached t owner c p l w g)
    (hl : l.length < 3) (hs : t.mapLevel p (l.length + 1) w i = some (w', t')) :
    Accounts t t' := by
  have hdepth : depth (l.foldl child (some p, [])) < 3 := by rw [depth_path]; exact hl
  obtain ⟨s₁, hget, hcases⟩ := mapLevel_on h.inv h.shown h.placed hdepth hs
  have hacq := getWorkpage_spec h.inv hget
  have hlt := (hacq.inv.work p _ w' hacq.shown).1
  refine (hacq.accounts h.inv hget).trans ?_
  rcases hcases with ⟨f, -, rfl⟩ | ⟨hj, f, hfree, hf40, rfl⟩
  · exact hacq.inv.setControl_accounts hlt (Or.inl (controlEntry_present _))
  · -- the structure is created
    have hp₁ := (hacq.keeps.locked h.locked).1
    have hends := hacq.keeps.descend h.inv h.locked.1 (Nat.le_of_lt hl) h.ends
    have hlinked := (hacq.inv.linkFresh h.placed hdepth hj hfree hf40).1
    exact (hacq.inv.linkFresh_accounts hp₁ hends h.placed hl hj hfree hf40).trans
      (hlinked.setControl_accounts hlt (Or.inl (controlEntry_present _)))

/-- **A walk takes frames for the structures it creates.** -/
theorem mapStructuresAt_accounts (hg : Good s) (hp : Locked s p) {v : Nat}
    (hs : s.mapStructuresAt p v = some s') : Accounts s s' := by
  obtain ⟨owner, c, h, ht⟩ := hg.tables
  obtain ⟨w₀, s₀, w₁, s₁, w₂, s₂, w₃, h₀, h₁, h₂, h₃⟩ :=
    mapStructures_cases (hg.current p hp.1 hp.2) hs
  obtain ⟨hr₀, -⟩ := mapPml4_reached h ht hp h₀
  obtain ⟨o₁, f₁, hr₁, -⟩ := hr₀.mapLevel (show 0 < 3 by decide) h₁
  obtain ⟨o₂, f₂, hr₂, -⟩ := hr₁.mapLevel (show 1 < 3 by decide) h₂
  have ha₁ := (mapPml4_accounts h h₀).trans (hr₀.accounts (show 0 < 3 by decide) h₁)
  have ha₂ := ha₁.trans (hr₁.accounts (show 1 < 3 by decide) h₂)
  exact ha₂.trans (hr₂.accounts (show 2 < 3 by decide) h₃)

end Accounts

/-! ## §4. The calls. -/

section Calls

variable {s s' : Paging} {owner : Nat → Option Place} {c p : Nat}

theorem getWorkpage_accounts (hg : Good s) {slot w : Nat}
    (hs : s.getWorkpage p slot = some (w, s')) : Accounts s s' := by
  obtain ⟨owner, c, h, -⟩ := hg.tables
  exact (getWorkpage_spec h hs).accounts h hs

/-- Writing the entry of a page outside the window, after the walk to it. -/
theorem setLeaf_accounts (hg : Good s) (hp : Locked s p) {v ptWork : Nat}
    (hw : (s.pagers p).workPages 3 = some ptWork) (hv : v % 2 ^ 36 < windowPage) {s₁ : Paging}
    (hs₁ : s.mapStructuresAt p v = some s₁) (e : PageStructuresEntry) :
    Accounts s (s₁.setEntry (s₁.workFrame ptWork) (pte v) e) := by
  obtain ⟨hst, owner, c, hinv, -, hd⟩ := mapStructuresAt_held hg hp hw hs₁
  exact (mapStructuresAt_accounts hg hp hs₁).trans
    (hinv.setLeaf_accounts (hst.locked hp).1 hv hd e)

theorem mapRound_accounts (hg : Good s) (hp : Locked s p) {ptWork v phys : Nat}
    {flags : PageFlags} (hw : (s.pagers p).workPages 3 = some ptWork)
    (hv : v % 2 ^ 36 < windowPage) (hs : s.mapRound p ptWork v phys flags = some s') :
    Accounts s s' := by
  unfold mapRound at hs
  simp only [Option.bind_eq_bind, Option.bind_eq_some_iff, pure, Option.some.injEq] at hs
  obtain ⟨s₁, hs₁, rfl⟩ := hs
  exact setLeaf_accounts hg hp hw hv hs₁ _

/-- `flags` writes the entries it finds. -/
theorem flagsRound_steps (hg : Good s) (hp : Locked s p) {ptWork v : Nat} {flags : PageFlags}
    (hw : (s.pagers p).workPages 3 = some ptWork) (hv : v % 2 ^ 36 < windowPage)
    (hs : s.flagsRound p ptWork v flags = some s') : (∃ f, Steps s s' f) ∧ Accounts s s' := by
  unfold flagsRound at hs
  simp only [Option.bind_eq_bind, Option.bind_eq_some_iff, pure, Option.some.injEq] at hs
  obtain ⟨s₁, hs₁, rfl⟩ := hs
  refine ⟨?_, setLeaf_accounts hg hp hw hv hs₁ _⟩
  obtain ⟨hst, owner, c, hinv, ht, hd⟩ := mapStructuresAt_held hg hp hw hs₁
  exact ⟨_, hst.trans (setLeaf_steps hst.good hinv ht (hst.locked hp).1 hv hd _)⟩

/-- **`flags` takes no frame but for page structures.** -/
theorem flags_steps (hg : Good s) (hp : Locked s p) {virt n : Nat} {flags : PageFlags}
    (hv : ∀ i, i < n → (virt >>> 12 + i) % 2 ^ 36 < windowPage)
    (hs : s.flags p virt n flags = some s') : (∃ f, Steps s s' f) ∧ Accounts s s' := by
  unfold Paging.flags at hs
  simp only [Option.bind_eq_bind, Option.bind_eq_some_iff] at hs
  obtain ⟨⟨w, s₁⟩, hget, hs⟩ := hs
  obtain ⟨hst, hw⟩ := getWorkpage_steps hg hp hget
  have hp₁ := hst.locked hp
  -- what the loop does to the flat maps does not matter here
  obtain ⟨⟨f, hsteps⟩, hacc⟩ := loop_invariant
    (I := fun _ t => (∃ f, Steps s₁ t f) ∧ Accounts s₁ t)
    ⟨⟨id, Steps.refl hst.good⟩, Accounts.refl s₁⟩ (by
      rintro m t t' hm - ⟨⟨f, hsteps⟩, hacc⟩ hround
      obtain ⟨⟨g, hsteps'⟩, hacc'⟩ := flagsRound_steps hsteps.good (hsteps.locked hp₁)
        (hsteps.held p 3 w hw) (hv m hm) hround
      exact ⟨⟨_, hsteps.trans hsteps'⟩, hacc.trans hacc'⟩) n s' (Nat.le_refl n) hs
  exact ⟨⟨_, hst.trans hsteps⟩, (getWorkpage_accounts hg hget).trans hacc⟩

/-- On no page at all it is a lookup. -/
theorem flags_zero_looked (hg : Good s) (hp : Locked s p) {virt : Nat} {flags : PageFlags}
    (hs : s.flags p virt 0 flags = some s') : Looked s s' p ∧ Accounts s s' := by
  unfold Paging.flags at hs
  simp only [Option.bind_eq_bind, Option.bind_eq_some_iff] at hs
  obtain ⟨⟨w, s₁⟩, hget, hs⟩ := hs
  injection hs with hs
  subst hs
  obtain ⟨owner, c, hinv, -⟩ := hg.tables
  have hst := (getWorkpage_steps hg hp hget).1
  exact ⟨(getWorkpage_untouched hinv hget).looked hst hinv (getWorkpage_spec hinv hget).inv,
    getWorkpage_accounts hg hget⟩

theorem unmapRound_accounts (hg : Good s) (hp : Locked s p) {ptWork v addr addr' : Nat}
    (hw : (s.pagers p).workPages 3 = some ptWork) (hv : v % 2 ^ 36 < windowPage)
    (hs : s.unmapRound p ptWork v addr = some (addr', s')) : Accounts s s' := by
  unfold unmapRound at hs
  simp only [Option.bind_eq_bind, Option.bind_eq_some_iff, pure, Option.some.injEq,
    Prod.mk.injEq] at hs
  obtain ⟨s₁, hs₁, -, rfl⟩ := hs
  exact setLeaf_accounts hg hp hw hv hs₁ _

/-- **`map` takes no frame but for page structures.** -/
theorem map_accounts (hg : Good s) (hp : Locked s p) {phys virt n : Nat} {flags : PageFlags}
    (hv : pageOf virt + n ≤ windowPage) (hphys : phys >>> 12 + n ≤ 2 ^ 40)
    (hs : s.map p phys virt n flags = some s') : Accounts s s' := by
  unfold map at hs
  simp only [Option.bind_eq_bind, Option.bind_eq_some_iff] at hs
  obtain ⟨⟨w, s₁⟩, hget, hs⟩ := hs
  obtain ⟨hst, hw⟩ := getWorkpage_steps hg hp hget
  have hp₁ := hst.locked hp
  refine (getWorkpage_accounts hg hget).trans ?_
  refine loop_invariant (I := fun _ t => Accounts s₁ t) (Accounts.refl s₁) ?_ n s' (Nat.le_refl n) hs
  intro m t t' hm ht hacc hround
  have hmod : (virt >>> 12 + m) % 2 ^ 36 < windowPage := by
    unfold pageOf at hv
    unfold windowPage at hv ⊢
    omega
  have hloop := mapLoop_steps hst.good hp₁ hw hv hphys m t (Nat.le_of_lt hm) ht
  exact hacc.trans (mapRound_accounts hloop.good (hloop.locked hp₁) (hloop.held p 3 w hw) hmod hround)

theorem unmap_accounts (hg : Good s) (hp : Locked s p) {virt n addr : Nat}
    (hv : pageOf virt + n ≤ windowPage) (hs : s.unmap p virt n = some (addr, s')) :
    Accounts s s' := by
  unfold unmap at hs
  simp only [Option.bind_eq_bind, Option.bind_eq_some_iff, pure, Option.some.injEq,
    Prod.mk.injEq] at hs
  obtain ⟨⟨w, s₁⟩, hget, ⟨addr₂, s₂⟩, hloop, -, rfl⟩ := hs
  obtain ⟨hst, hw⟩ := getWorkpage_steps hg hp hget
  have hp₁ := hst.locked hp
  have hacc : Accounts s₁ s₂ := by
    refine loop_invariant (I := fun _ t => Accounts s₁ t.2) (Accounts.refl s₁) ?_ n (addr₂, s₂)
      (Nat.le_refl n) hloop
    intro m ⟨a, t⟩ ⟨a', t'⟩ hm ht hacc hround
    have hmod : (virt >>> 12 + m) % 2 ^ 36 < windowPage := by
      unfold pageOf at hv
      unfold windowPage at hv ⊢
      omega
    have hsteps := unmapLoop_steps hst.good hp₁ hw hv m (a, t) (Nat.le_of_lt hm) ht
    exact hacc.trans
      (unmapRound_accounts hsteps.good (hsteps.locked hp₁) (hsteps.held p 3 w hw) hmod hround)
  have hall := (getWorkpage_accounts hg hget).trans hacc
  -- the hint is no part of the account
  split
  · exact ⟨hall.kept, hall.fresh, hall.taken, hall.used, hall.window, hall.top⟩
  · exact hall

theorem entryOf_accounts (hg : Good s) (hp : Locked s p) {virt : Nat} {e : PageStructuresEntry}
    (hs : s.entryOf p virt = some (e, s')) : Accounts s s' := by
  unfold entryOf at hs
  simp only [Option.bind_eq_bind, Option.bind_eq_some_iff, pure, Option.some.injEq,
    Prod.mk.injEq] at hs
  obtain ⟨s₁, hs₁, ⟨w, s₂⟩, hget, -, rfl⟩ := hs
  have hst := (mapStructuresAt_steps hg hp hs₁).1
  exact (mapStructuresAt_accounts hg hp hs₁).trans (getWorkpage_accounts hst.good hget)

theorem getFlags_accounts (hg : Good s) (hp : Locked s p) {virt : Nat} {flags : PageFlags}
    (hs : s.getFlags p virt = some (flags, s')) : Accounts s s' := by
  unfold getFlags at hs
  obtain ⟨⟨e, s₁⟩, he, hs⟩ := Option.map_eq_some_iff.mp hs
  rw [← (Prod.mk.inj hs).2]
  exact entryOf_accounts hg hp he

theorem getPhysicalAddress_accounts (hg : Good s) (hp : Locked s p) {virt addr : Nat}
    (hs : s.getPhysicalAddress p virt = some (addr, s')) : Accounts s s' := by
  unfold getPhysicalAddress at hs
  obtain ⟨⟨e, s₁⟩, he, hs⟩ := Option.map_eq_some_iff.mp hs
  rw [← (Prod.mk.inj hs).2]
  exact entryOf_accounts hg hp he

theorem probeRange_accounts {addr : Nat} {hit : Option Nat} :
    ∀ count offset s, Good s → Locked s p → probeRange p addr count offset s = some (hit, s') →
      Accounts s s' := by
  intro count
  induction count with
  | zero =>
      intro offset s _ _ hs
      simp only [probeRange, Option.some.injEq, Prod.mk.injEq] at hs
      rw [← hs.2]
      exact Accounts.refl s
  | succ count ih =>
      intro offset s hg hp hs
      simp only [probeRange, Option.bind_eq_bind, Option.bind_eq_some_iff, Prod.exists] at hs
      obtain ⟨flags, s₁, hflags, hs⟩ := hs
      have hst := (getFlags_steps hg hp hflags).1
      have hacc := getFlags_accounts hg hp hflags
      split at hs
      · simp only [pure, Option.some.injEq, Prod.mk.injEq] at hs
        rw [← hs.2]
        exact hacc
      · exact hacc.trans (ih _ s₁ hst.good (hst.locked hp) hs)

theorem bumpHints_accounts (s : Paging) (p addr offset : Nat) :
    Accounts s (s.bumpHints p addr offset) :=
  accounts_of_pagers rfl rfl rfl rfl fun q => (bumpHints_pager s p addr offset q).1

/-- **The search takes no frame but for page structures**, from wherever it starts. -/
theorem getFreeRangeLoop_accounts {n start : Nat} :
    ∀ fuel addr s, Good s → Locked s p → addr % 2 ^ 12 = 0 →
      getFreeRangeLoop p n fuel addr s = some (start, s') → Accounts s s' := by
  intro fuel
  induction fuel with
  | zero => intro addr s _ _ _ hs; exact absurd hs (by simp [getFreeRangeLoop])
  | succ fuel ih =>
      intro addr s hg hp haddr hs
      simp only [getFreeRangeLoop] at hs
      split at hs
      · simp only [Option.some.injEq, Prod.mk.injEq] at hs
        rw [← hs.2]
        exact Accounts.refl s
      · simp only [Option.bind_eq_bind, Option.bind_eq_some_iff, Prod.exists] at hs
        obtain ⟨hit, s₁, hprobe, hs⟩ := hs
        obtain ⟨hst, hres⟩ := probeRange_steps n 0 s hg hp hprobe
        have hacc := probeRange_accounts n 0 s hg hp hprobe
        cases hit with
        | none =>
            simp only [pure, Option.some.injEq, Prod.mk.injEq] at hs
            rw [← hs.2]
            exact hacc
        | some offset =>
            have hoff : offset % 2 ^ 12 = 0 := by
              obtain ⟨i, -, ho, -⟩ := hres (translate s) (views_translate s)
              omega
            have hbump := bumpHints_steps hst.good p haddr hoff
            have hst' := hst.trans hbump
            exact (hacc.trans (bumpHints_accounts s₁ p addr offset)).trans
              (ih _ _ hst'.good (hst'.locked hp) (by omega) hs)

theorem getFreeRange_accounts (hg : Good s) (hp : Locked s p) {start n r : Nat}
    (hal : start % 2 ^ 12 = 0) (hs : s.getFreeRange p start n = some (r, s')) : Accounts s s' :=
  getFreeRangeLoop_accounts _ start s hg hp hal hs

/-- **Every call takes frames for page structures only.** -/
theorem exec_accounts (hg : Good s) (hp : Locked s p) {call : PagerCall} {result : PagerResult}
    (hr : call.InRange) (hs : s.exec p call = some (result, s')) (hfit : call.Fits result) :
    Accounts s s' := by
  cases call with
  | map phys virt n flags =>
      simp only [exec, Option.map_eq_some_iff, Prod.mk.injEq] at hs
      obtain ⟨s₁, hs₁, -, rfl⟩ := hs
      exact map_accounts hg hp hr.2.2.1 hr.2.2.2 hs₁
  | unmap virt n =>
      simp only [exec, Option.map_eq_some_iff, Prod.mk.injEq, Prod.exists] at hs
      obtain ⟨a, s₁, hs₁, -, rfl⟩ := hs
      exact unmap_accounts hg hp hr.2.2 hs₁
  | kmap phys n flags =>
      simp only [exec, Option.map_eq_some_iff, Prod.mk.injEq, Prod.exists] at hs
      obtain ⟨a, s₂, hs₂, rfl, rfl⟩ := hs
      unfold kmap at hs₂
      simp only [Option.bind_eq_bind, Option.bind_eq_some_iff, Prod.exists, pure,
        Option.some.injEq, Prod.mk.injEq] at hs₂
      obtain ⟨start, s₁, hfind, s₃, hmap, rfl, rfl⟩ := hs₂
      have hn := hfit.2
      rw [show phys &&& 0xFFF = phys % 2 ^ 12 by
        rw [show 0xFFF = 2 ^ 12 - 1 from rfl, Nat.and_two_pow_sub_one_eq_mod]] at hn
      have hacc := getFreeRange_accounts hg hp hg.aligned hfind
      rw [getFreeRange_eq _ _ _ (by unfold windowPage at hn; omega)] at hfind
      obtain ⟨hst, hstart, -⟩ := getFreeRangeLoop_steps _ _ s hg hp hg.aligned hfind
      have hpage : pageOf (start + phys % 2 ^ 12) = pageOf start := by
        rw [pageOf_eq, pageOf_eq]
        omega
      rw [hpage] at hn
      exact hacc.trans (map_accounts hst.good (hst.locked hp) hn hr hmap)
  | getFlags virt =>
      simp only [exec, Option.map_eq_some_iff, Prod.mk.injEq, Prod.exists] at hs
      obtain ⟨f, s₁, hs₁, -, rfl⟩ := hs
      exact getFlags_accounts hg hp hs₁
  | getPhysicalAddress virt =>
      simp only [exec, Option.map_eq_some_iff, Prod.mk.injEq, Prod.exists] at hs
      obtain ⟨a, s₁, hs₁, -, rfl⟩ := hs
      exact getPhysicalAddress_accounts hg hp hs₁

theorem lock_accounts (s : Paging) (p : Nat) : Accounts s (s.lock p) := by
  refine accounts_of_pagers rfl rfl rfl rfl fun q => ?_
  unfold lock setPager
  dsimp only
  split
  · rename_i hq; rw [hq]
  · rfl

theorem releaseSlot_accounts (hg : Good s) (p slot : Nat) : Accounts s (s.releaseSlot p slot) := by
  cases hw : (s.pagers p).workPages slot with
  | none =>
      rw [releaseSlot_none hw]
      exact Accounts.refl s
  | some w =>
      obtain ⟨owner, c, h, -⟩ := hg.tables
      rw [releaseSlot_eq hw]
      have hdrop : Accounts s (s.dropWork p slot) :=
        accounts_of_pagers rfl rfl rfl rfl fun q => (dropWork_pager s p slot q).1
      exact hdrop.trans ((h.dropWork p slot).setControl_accounts (h.work p slot w hw).1
        (Or.inr (h.dropWork_ne hw)))

theorem unlock_accounts (hg : Good s) (p : Nat) : Accounts s (s.unlock p) := by
  have hslots : ∀ n, Accounts s ((List.range n).foldl (fun s i => s.releaseSlot p i) s) := by
    intro n
    induction n with
    | zero => exact Accounts.refl s
    | succ n ih =>
        rw [List.range_succ, List.foldl_append, List.foldl_cons, List.foldl_nil]
        exact ih.trans (releaseSlot_accounts (releaseSlots_quiet hg p n).1.good p n)
  refine (hslots 4).trans (accounts_of_pagers rfl rfl rfl rfl fun q => ?_)
  unfold unlock setPager
  dsimp only
  split
  · rename_i hq; rw [hq]
  · rfl

end Calls

/-! ## §5. The topmost page. -/

section Top

variable {s s' : Paging} {owner : Nat → Option Place} {c p q : Nat}

/-- The topmost page is the control page, shown by its own last slot. -/
theorem Inv.topPresent_iff (h : Inv s owner c) (hp : p < s.pagerCount) :
    TopPresent s p ↔ (s.mem s.windowTable 511).present = true := by
  have hv : InWindow (2 ^ 52 - 1) := (inWindow_iff _).mpr (by decide)
  unfold TopPresent
  rw [h.translate_window hp hv, leaf_isSome, h.windowTable_eq, show pte (2 ^ 52 - 1) = 511 by decide]

theorem Accounts.topPresent (hacc : Accounts s s')
    (htop : (s.mem s.windowTable 511).present = true) :
    (s'.mem s'.windowTable 511).present = true := by
  rw [hacc.window, hacc.top]
  exact htop

/-- Who may use the pager finds the topmost page present. -/
theorem lock_topPresent (hg : Good s) (hp : p < s.pagerCount) (htop : TopPresent s p) :
    TopPresent (s.lock p) p := by
  obtain ⟨owner, c, hinv, -⟩ := hg.tables
  obtain ⟨owner', c', hinv', -⟩ := (lock_quiet hg p).good.tables
  have hp' : p < (s.lock p).pagerCount := hp
  exact (hinv'.topPresent_iff hp').mpr
    ((lock_accounts s p).topPresent ((hinv.topPresent_iff hp).mp htop))

theorem newPager_top (h : Inv s owner c) (hs : s.newPager = some s')
    (htop : (s.mem s.windowTable 511).present = true) :
    (s'.mem s'.windowTable 511).present = true := by
  obtain ⟨W, t, pml4, pdpt, pg, sc, -, rfl, -, -, -, -, -, hW, -⟩ := newPager_scratch h hs
  have hslot := sc.slots 511 fun hW' => Nat.lt_irrefl 511 (hW 511 hW').1
  show (t.mem t.windowTable 511).present = true
  rw [sc.inv.windowTable_eq, hslot, ← h.windowTable_eq]
  exact htop

theorem initControl_top (hs : s.initControl = some s') :
    (s'.mem s'.windowTable 511).present = true := by
  unfold initControl at hs
  simp only [Option.bind_eq_bind, Option.bind_eq_some_iff, Prod.exists, pure,
    Option.some.injEq] at hs
  obtain ⟨control, s₁, hpal, rfl⟩ := hs
  obtain ⟨-, h40, -⟩ := palloc_cases hpal
  have hwindow : (((s₁.zeroFrame control).setEntry (s₁.zeroFrame control).kernelPd1 511
      (.ofRaw (control <<< 12 ||| 0x03))).setEntry control 511
        (.ofRaw (control <<< 12 ||| 0x8000000000000103))).windowTable = control := by
    unfold windowTable
    rw [setEntry_mem]
    split
    · exact ofRaw_or_address h40 (by decide)
    · rw [setEntry_mem, if_pos ⟨rfl, rfl⟩]
      exact ofRaw_or_address h40 (by decide)
  rw [hwindow, setEntry_mem, if_pos ⟨rfl, rfl⟩]
  exact ofRaw_or_present (by decide)

theorem Booted.top (hboot : Booted s) :
    0 < s.pagerCount ∧ (s.mem s.windowTable 511).present = true := by
  obtain ⟨mem, used, supply, kernelBaseP, kernelBaseV, pmrs, hs⟩ := hboot
  refine ⟨by rw [(init_good hs).2.1]; decide, ?_⟩
  obtain ⟨_, _, s₂, s₃, s₄, owner₃, c, h₃, h₄, hinv', -, -, -, rfl⟩ := init_phases hs
  -- the first pager comes after the control page, and keeps its last slot
  have htop := initControl_top h₃
  have htop₄ := newPager_top hinv' h₄ htop
  exact htop₄

/-- **In every state the pagers can reach** the topmost page is present. -/
theorem reachable_topPresent {s₀ : Paging} {hist : List PagingEvent} (hboot : Booted s₀)
    (hrun : Run PagingStep s₀ hist s) :
    0 < s.pagerCount ∧ ∀ p, p < s.pagerCount → TopPresent s p := by
  have hgood : Good s₀ := reachable_good hboot .init
  -- the last slot of the control page, which no pager has of its own
  obtain ⟨hg, hcount, htop⟩ := hrun.invariant
    (fun s => Good s ∧ 0 < s.pagerCount ∧ (s.mem s.windowTable 511).present = true)
    ⟨hgood, hboot.top⟩ (by
      intro s e s' ⟨hg, hcount, htop⟩ hst
      cases hst with
      | newPager hs =>
          obtain ⟨owner, c, hinv, -⟩ := hg.tables
          obtain ⟨hg', hcr⟩ := newPager_good hg hs
          exact ⟨hg', by rw [hcr.count]; exact Nat.succ_pos _, newPager_top hinv hs htop⟩
      | lock _ =>
          exact ⟨(lock_quiet hg _).good, hcount, (lock_accounts s _).topPresent htop⟩
      | unlock _ =>
          have hquiet := unlock_quiet hg
          exact ⟨(hquiet _).good, by rw [(hquiet _).count]; exact hcount,
            (unlock_accounts hg _).topPresent htop⟩
      | call hp hr hs hfit =>
          obtain ⟨-, hg', hp'⟩ := exec_flatStep hg hp hr hs hfit
          exact ⟨hg', Nat.zero_lt_of_lt hp'.1, (exec_accounts hg hp hr hs hfit).topPresent htop⟩)
  obtain ⟨owner, c, hinv, -⟩ := hg.tables
  exact ⟨hcount, fun p hp => (hinv.topPresent_iff hp).mpr htop⟩

/-! ## §6. What `unlock` takes back. -/

theorem releaseSlots_workPages (s : Paging) (p q k : Nat) :
    ∀ n, (((List.range n).foldl (fun s i => s.releaseSlot p i) s).pagers q).workPages k
      = if q = p ∧ k < n then none else (s.pagers q).workPages k := by
  intro n
  induction n with
  | zero => rw [if_neg (fun h => Nat.not_lt_zero k h.2)]; rfl
  | succ n ih =>
      rw [List.range_succ, List.foldl_append, List.foldl_cons, List.foldl_nil,
        releaseSlot_workPages, ih]
      by_cases hqk : q = p ∧ k < n + 1
      · rw [if_pos hqk]
        by_cases hkn : k = n
        · rw [if_pos ⟨hqk.1, hkn⟩]
        · rw [if_neg (fun h => hkn h.2), if_pos ⟨hqk.1, by omega⟩]
      · rw [if_neg hqk, if_neg (fun h => hqk ⟨h.1, by omega⟩),
          if_neg (fun h => hqk ⟨h.1, by omega⟩)]

theorem unlock_workPages (s : Paging) (p q k : Nat) :
    ((s.unlock p).pagers q).workPages k
      = if q = p ∧ k < 4 then none else (s.pagers q).workPages k := by
  rw [← releaseSlots_workPages s p q k 4]
  unfold unlock setPager
  dsimp only
  split
  · rename_i hq; rw [hq]
  · rfl

theorem unlock_lockDepth (hg : Good s) (p : Nat) :
    ((s.unlock p).pagers p).lockDepth = (s.pagers p).lockDepth - 1 := by
  unfold unlock setPager
  dsimp only
  rw [if_pos rfl]
  exact congrArg (· - 1) ((releaseSlots_quiet hg p 4).2.1 p)

/-- A control slot is marked exactly when some pager holds it. -/
theorem Inv.slot_present_iff (h : Inv s owner c) (ht : Tidy s c) {i : Nat} (hi : i < 511) :
    (s.mem c i).present = true ↔ ∃ q k, (s.pagers q).workPages k = some i :=
  ⟨ht.held i hi, fun ⟨q, k, hqk⟩ => (h.work q k i hqk).2⟩

/-- **`unlock` takes back the work pages of the pager**, and no other page. -/
theorem unlock_present (hg : Good s) (p : Nat) (hq : q < s.pagerCount) (v : Nat) :
    (translate (s.unlock p) q v).isSome = true
      ↔ (translate s q v).isSome = true ∧ ¬ OwnWorkPage s p v := by
  have hquiet := unlock_quiet hg p
  have hacc := unlock_accounts hg p
  have hq' : q < (s.unlock p).pagerCount := by rw [hquiet.count]; exact hq
  by_cases hv : InWindow v
  · obtain ⟨owner, c, hinv, ht⟩ := hg.tables
    obtain ⟨owner', c', hinv', ht'⟩ := hquiet.good.tables
    -- both states have the same control page
    have hc : c' = c := by
      rw [← hinv'.windowTable_eq, hacc.window, hinv.windowTable_eq]
    subst hc
    rw [hinv'.translate_window hq' hv, hinv.translate_window hq hv, leaf_isSome, leaf_isSome]
    -- in the window a page is told by its slot
    have hown : OwnWorkPage s p v ↔ ∃ k, (s.pagers p).workPages k = some (pte v) := by
      rw [pte_eq]
      exact ⟨And.right, fun h => ⟨(inWindow_iff v).mp hv, h⟩⟩
    rw [hown]
    rcases Nat.lt_or_ge (pte v) 511 with hlt | hge
    · rw [hinv'.slot_present_iff ht' hlt, hinv.slot_present_iff ht hlt]
      simp only [unlock_workPages]
      constructor
      · intro ⟨r, k, hrk⟩
        split at hrk
        · exact absurd hrk (by simp)
        · rename_i hne
          refine ⟨⟨r, k, hrk⟩, ?_⟩
          intro ⟨k', hk'⟩
          obtain ⟨rfl, rfl⟩ := hinv.workInj _ _ _ _ _ hrk hk'
          exact hne ⟨rfl, (ht.slots r k _ hrk).2.1⟩
      · intro ⟨⟨r, k, hrk⟩, hnot⟩
        refine ⟨r, k, ?_⟩
        rw [if_neg, hrk]
        rintro ⟨rfl, -⟩
        exact hnot ⟨k, hrk⟩
    · -- the last slot is no work page
      have htop : pte v = 511 := by
        rw [pte_eq] at hge ⊢
        omega
      have hslot := hacc.top
      rw [hinv.windowTable_eq] at hslot
      rw [htop, hslot]
      refine ⟨fun h => ⟨h, ?_⟩, And.left⟩
      intro ⟨k, hk⟩
      exact Nat.lt_irrefl 511 (hinv.work p k 511 hk).1
  · have hlow : v % 2 ^ 36 < windowPage := by
      rw [inWindow_iff] at hv
      omega
    have hsame : translate (s.unlock p) q v = translate s q v := by
      rw [← translate_mod (s.unlock p) q (Nat.mod_mod v (2 ^ 36)),
        hquiet.view _ (views_translate s) q _ hq' hlow, translate_mod s q (Nat.mod_mod v (2 ^ 36))]
    rw [hsame]
    refine ⟨fun h => ⟨h, fun hown => ?_⟩, And.left⟩
    exact hv ((inWindow_iff v).mpr hown.1)

end Top

end Paging

end MierOS.Memory.Virtual
