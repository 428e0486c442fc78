/-
  MierOS.Memory.PagerProgress
  **THE PAGER OPERATIONS RETURN**, as long as `palloc` has fresh frames.

  A walk stops for two reasons only: the allocator has no unused frame for a
  new page structure, or all 511 work pages are taken.  `Supplied s n` says
  that the next `n` frames are fresh; the second cannot happen while one pager
  is locked, since a locked pager holds at most four work pages.
-/
import Mathlib.Combinatorics.Pigeonhole
import MierOS.Memory.PagerFrame

namespace MierOS.Memory.Virtual

open Lib Lib.TableTree

namespace Paging

/-- The next `n` frames `palloc` hands out are distinct and not in use. -/
def Supplied (s : Paging) (n : Nat) : Prop :=
  n ≤ s.supply.length ∧ (s.supply.take n).Nodup
    ∧ ∀ f, f ∈ s.supply.take n → s.used f = false ∧ f < 2 ^ 40

/-- No pager but `p` is locked. -/
def OnlyLocked (s : Paging) (p : Nat) : Prop := ∀ q, 0 < (s.pagers q).lockDepth → q = p

/-- The locked pagers are at most 127, so that four work pages each leave some. -/
def FewLocked (s : Paging) : Prop :=
  ∃ locked : Finset Nat, locked.card ≤ 127
    ∧ ∀ q, q < s.pagerCount → 0 < (s.pagers q).lockDepth → q ∈ locked

variable {s s' : Paging} {owner : Nat → Option Place} {c : Nat}

/-! ## §1. Frames. -/

theorem Supplied.mono {m n : Nat} (h : Supplied s n) (hmn : m ≤ n) : Supplied s m := by
  obtain ⟨hlen, hnodup, hfree⟩ := h
  have hsub : (s.supply.take m).Sublist (s.supply.take n) := by
    rw [show s.supply.take m = (s.supply.take n).take m by rw [List.take_take, Nat.min_eq_left hmn]]
    exact List.take_sublist _ _
  exact ⟨by omega, hnodup.sublist hsub, fun f hf => hfree f (hsub.subset hf)⟩

theorem Supplied.congr {n : Nat} (h : Supplied s n) (hused : s'.used = s.used)
    (hsupply : s'.supply = s.supply) : Supplied s' n := by
  unfold Supplied
  rw [hused, hsupply]
  exact h

theorem palloc_some {n : Nat} (h : Supplied s (n + 1)) :
    ∃ f s', s.palloc = some (f, s') ∧ Supplied s' n := by
  obtain ⟨hlen, hnodup, hfree⟩ := h
  cases hsup : s.supply with
  | nil =>
      rw [hsup] at hlen
      exact absurd hlen (Nat.not_succ_le_zero n)
  | cons f rest =>
      rw [hsup, List.take_succ_cons, List.nodup_cons] at hnodup
      rw [hsup, List.length_cons] at hlen
      rw [hsup, List.take_succ_cons] at hfree
      obtain ⟨hu, h40⟩ := hfree f (List.mem_cons_self ..)
      refine ⟨f, _, by
        unfold palloc
        rw [hsup]
        exact if_neg (by rw [hu]; simp; omega), ?_, hnodup.2, ?_⟩
      · show n ≤ rest.length
        omega
      · intro x hx
        obtain ⟨hux, hx40⟩ := hfree x (List.mem_cons_of_mem f hx)
        refine ⟨?_, hx40⟩
        show (if x = f then true else s.used x) = false
        rw [if_neg, hux]
        rintro rfl
        exact hnodup.1 hx

/-! ## §2. Work pages. -/

theorem OnlyLocked.few {p : Nat} (honly : OnlyLocked s p) : FewLocked s :=
  ⟨{p}, by simp, fun q _ hq => Finset.mem_singleton.mpr (honly q hq)⟩

/-- Some work page is free: each marked one is one of the four of a locked pager. -/
theorem exists_free_slot (ht : Tidy s c) (hfew : FewLocked s) :
    ∃ i, i < 511 ∧ (s.mem c i).present = false := by
  by_contra hall
  push Not at hall
  obtain ⟨locked, hcard, hlocked⟩ := hfew
  have hheld : ∀ i, i ∈ Finset.range 511 →
      ∃ qk ∈ locked ×ˢ Finset.range 4, (s.pagers qk.1).workPages qk.2 = some i := by
    intro i hi
    rw [Finset.mem_range] at hi
    obtain ⟨q, k, hqk⟩ := ht.held i hi (by simpa using hall i hi)
    obtain ⟨hq, hk, hl⟩ := ht.slots q k i hqk
    exact ⟨(q, k), Finset.mem_product.mpr ⟨hlocked q hq hl, Finset.mem_range.mpr hk⟩, hqk⟩
  choose! slot hmem hslot using hheld
  have hfits : (locked ×ˢ Finset.range 4).card < (Finset.range 511).card := by
    rw [Finset.card_product, Finset.card_range, Finset.card_range]
    omega
  obtain ⟨i, hi, j, hj, hij, hsame⟩ := Finset.exists_ne_map_eq_of_card_lt_of_maps_to hfits
    (fun i hi => Finset.mem_coe.mpr (hmem i hi))
  have hiw := hslot i hi
  rw [hsame, hslot j hj] at hiw
  injection hiw with hiw
  exact hij hiw.symm

theorem getWorkpage_some (hinv : Inv s owner c) (ht : Tidy s c) (hfew : FewLocked s)
    (p slot : Nat) : ∃ w s', s.getWorkpage p slot = some (w, s') := by
  unfold getWorkpage
  cases hw : (s.pagers p).workPages slot with
  | some w => exact ⟨w, s, rfl⟩
  | none =>
      obtain ⟨i, hi, hfree⟩ := exists_free_slot ht hfew
      have hfind : ((List.range 511).find? fun i => !(s.mem s.controlFrame i).present).isSome := by
        rw [List.find?_isSome, hinv.controlFrame_eq]
        exact ⟨i, List.mem_range.mpr hi, by rw [hfree]; rfl⟩
      obtain ⟨w, hwf⟩ := Option.isSome_iff_exists.mp hfind
      unfold aquireWorkpageIndex
      rw [hwf]
      exact ⟨w, _, rfl⟩

/-! ## §3. Walks. -/

theorem Keeps.fewLocked {owner' : Nat → Option Place} (hk : Keeps s s' owner owner')
    (h : FewLocked s) : FewLocked s' := by
  obtain ⟨locked, hcard, hlocked⟩ := h
  refine ⟨locked, hcard, fun q hq hl => ?_⟩
  rw [hk.count] at hq
  rw [hk.lockDepth] at hl
  exact hlocked q hq hl

/-- One level needs at most one frame. -/
theorem mapLevel_some (hinv : Inv s owner c) (ht : Tidy s c) (hfew : FewLocked s) {n : Nat}
    (hsup : Supplied s (n + 1)) (p slot parent index : Nat) :
    ∃ w s', s.mapLevel p slot parent index = some (w, s') ∧ Supplied s' n := by
  obtain ⟨w, s₁, hget⟩ := getWorkpage_some hinv ht hfew p slot
  have hacq := getWorkpage_spec hinv hget
  have hsup₁ : Supplied s₁ (n + 1) := hsup.congr hacq.used hacq.supply
  unfold mapLevel
  rw [hget]
  simp only [Option.bind_eq_bind, Option.bind_some]
  by_cases hpres : (s₁.mem (s₁.workFrame parent) index).present = true
  · rw [if_pos hpres]
    exact ⟨_, _, rfl, (hsup₁.mono (Nat.le_succ n)).congr rfl rfl⟩
  · rw [if_neg hpres]
    obtain ⟨f, s₂, hpal, hsup₂⟩ := palloc_some hsup₁
    rw [hpal]
    exact ⟨_, _, rfl, hsup₂.congr rfl rfl⟩

theorem mapPml4_some (hinv : Inv s owner c) (ht : Tidy s c) (hfew : FewLocked s) (p : Nat) :
    ∃ w s', s.mapPml4 p = some (w, s') ∧ s'.used = s.used ∧ s'.supply = s.supply := by
  unfold mapPml4
  cases hw : (s.pagers p).workPages 0 with
  | some w => exact ⟨w, s, rfl, rfl, rfl⟩
  | none =>
      obtain ⟨w, s₁, hget⟩ := getWorkpage_some hinv ht hfew p 0
      have hacq := getWorkpage_spec hinv hget
      simp only [hget, Option.map_some]
      exact ⟨w, _, rfl, hacq.used, hacq.supply⟩

/-- **The walk returns if every level does**: `R` is what the levels need and
hand on. -/
theorem mapStructuresAt_returns {R : List Nat → Paging → Prop} (hg : Good s) {p v : Nat}
    (hp : Locked s p) (hfew : FewLocked s)
    (hroot : ∀ w t, s.mapPml4 p = some (w, t) → t.used = s.used → t.supply = s.supply → R [] t)
    (hlevel : ∀ t owner c l w g i, Reached t owner c p l w g → l.length < 3 → FewLocked t →
      l ++ [i] <+: path v → R l t →
      ∃ w' t', t.mapLevel p (l.length + 1) w i = some (w', t') ∧ R (l ++ [i]) t') :
    ∃ s', s.mapStructuresAt p v = some s' ∧ R (path v) s' := by
  obtain ⟨owner, c, hinv, ht⟩ := hg.tables
  obtain ⟨w₀, s₀, h₀, hused, hsupply⟩ := mapPml4_some hinv ht hfew p
  obtain ⟨hr₀, hk₀⟩ := mapPml4_reached hinv ht hp h₀
  have hfew₀ := hk₀.fewLocked hfew
  obtain ⟨w₁, s₁, h₁, hR₁⟩ := hlevel s₀ owner c [] w₀ _ (pml4e v) hr₀ (by decide) hfew₀
    ⟨[pdpte v, pde v], rfl⟩ (hroot w₀ s₀ h₀ hused hsupply)
  obtain ⟨o₁, f₁, hr₁, hk₁⟩ := hr₀.mapLevel (show 0 < 3 by decide) h₁
  have hfew₁ := hk₁.fewLocked hfew₀
  obtain ⟨w₂, s₂, h₂, hR₂⟩ := hlevel s₁ o₁ c [pml4e v] w₁ f₁ (pdpte v) hr₁
    (show 1 < 3 by decide) hfew₁ ⟨[pde v], rfl⟩ hR₁
  obtain ⟨o₂, f₂, hr₂, hk₂⟩ := hr₁.mapLevel (show 1 < 3 by decide) h₂
  obtain ⟨w₃, s₃, h₃, hR₃⟩ := hlevel s₂ o₂ c [pml4e v, pdpte v] w₂ f₂ (pde v) hr₂
    (show 2 < 3 by decide) (hk₂.fewLocked hfew₁) ⟨[], rfl⟩ hR₂
  refine ⟨s₃, ?_, hR₃⟩
  have hremap : (s.pagers p).currentPml4e ≠ (pml4e v : Int) := by
    rw [hg.current p hp.1 hp.2]
    omega
  have e₁ : s₀.mapLevel p 1 w₀ (pml4e v) = some (w₁, s₁) := h₁
  have e₂ : s₁.mapLevel p 2 w₁ (pdpte v) = some (w₂, s₂) := h₂
  have e₃ : s₂.mapLevel p 3 w₂ (pde v) = some (w₃, s₃) := h₃
  unfold mapStructuresAt mapStructures
  simp only [h₀, hremap, ne_eq, not_false_eq_true, if_true, or_true, Option.bind_eq_bind,
    Option.bind_some, e₁, e₂, e₃, Option.map_some, Prod.map_apply, id_eq]

/-- **`mapStructures` needs at most three frames.** -/
theorem mapStructuresAt_some (hg : Good s) {p v n : Nat} (hp : Locked s p)
    (honly : OnlyLocked s p) (hsup : Supplied s (n + 3)) :
    ∃ s', s.mapStructuresAt p v = some s' ∧ Supplied s' n := by
  refine mapStructuresAt_returns (R := fun l t => Supplied t (n + (3 - l.length))) hg hp honly.few
    (fun w t _ hused hsupply => hsup.congr hused hsupply) ?_
  intro t owner c l w g i hr hl hfew _ hsup'
  rw [show n + (3 - l.length) = n + (3 - (l ++ [i]).length) + 1 by
    rw [List.length_append, List.length_singleton]; omega] at hsup'
  exact mapLevel_some hr.inv hr.tidy hfew hsup' p (l.length + 1) w i

theorem Steps.onlyLocked {f : Flat → Flat} (h : Steps s s' f) {p : Nat} (honly : OnlyLocked s p) :
    OnlyLocked s' p := by
  intro q hq
  rw [h.lockDepth] at hq
  exact honly q hq

theorem getWorkpage_supplied (hg : Good s) {p n : Nat} (honly : OnlyLocked s p)
    (hsup : Supplied s n) (slot : Nat) :
    ∃ w s', s.getWorkpage p slot = some (w, s') ∧ Supplied s' n := by
  obtain ⟨owner, c, hinv, ht⟩ := hg.tables
  obtain ⟨w, s₁, hget⟩ := getWorkpage_some hinv ht honly.few p slot
  have hacq := getWorkpage_spec hinv hget
  exact ⟨w, s₁, hget, hsup.congr hacq.used hacq.supply⟩

/-! ## §4. `map`, `unmap` and the lookups. -/

theorem mapRound_some (hg : Good s) {p n : Nat} (hp : Locked s p) (honly : OnlyLocked s p)
    (hsup : Supplied s (n + 3)) (ptWork v phys : Nat) (flags : PageFlags) :
    ∃ s', s.mapRound p ptWork v phys flags = some s' ∧ Supplied s' n := by
  obtain ⟨s₁, hs₁, hsup₁⟩ := mapStructuresAt_some hg (v := v) hp honly hsup
  unfold mapRound
  rw [hs₁]
  exact ⟨_, rfl, hsup₁.congr rfl rfl⟩

theorem mapLoop_some (hg : Good s) {p ptWork v phys n k : Nat} (flags : PageFlags)
    (hp : Locked s p) (honly : OnlyLocked s p) (hw : (s.pagers p).workPages 3 = some ptWork)
    (hn : v % 2 ^ 36 + n ≤ windowPage) (hphys : phys + n ≤ 2 ^ 40)
    (hsup : Supplied s (k + 3 * n)) :
    ∃ s', (List.range n).foldlM (fun s i => s.mapRound p ptWork (v + i) (phys + i) flags) s
        = some s' ∧ Supplied s' k := by
  -- three frames for each round that is left
  obtain ⟨s', hs', hsup'⟩ := loop_returns (n := n)
    (f := fun s i => s.mapRound p ptWork (v + i) (phys + i) flags)
    (I := fun m t => Supplied t (k + 3 * (n - m))) hsup (by
      intro m s₁ hm hs₁ hsup₁
      have hst := mapLoop_steps hg hp hw hn hphys m s₁ (Nat.le_of_lt hm) hs₁
      rw [show k + 3 * (n - m) = k + 3 * (n - (m + 1)) + 3 by omega] at hsup₁
      exact mapRound_some hst.good (hst.locked hp) (hst.onlyLocked honly) hsup₁ ptWork (v + m)
        (phys + m) flags)
  refine ⟨s', hs', hsup'.mono (Nat.le_add_right _ _)⟩

theorem map_some (hg : Good s) {p phys virt n m : Nat} (flags : PageFlags) (hp : Locked s p)
    (honly : OnlyLocked s p) (hv : pageOf virt + n ≤ windowPage) (hphys : phys >>> 12 + n ≤ 2 ^ 40)
    (hsup : Supplied s (m + 3 * n)) :
    ∃ s', s.map p phys virt n flags = some s' ∧ Supplied s' m := by
  obtain ⟨w, s₁, hget, hsup₁⟩ := getWorkpage_supplied hg honly hsup 3
  obtain ⟨hst, hw⟩ := getWorkpage_steps hg hp hget
  obtain ⟨s₂, hs₂, hsup₂⟩ := mapLoop_some hst.good flags (hst.locked hp)
    (hst.onlyLocked honly) hw hv hphys hsup₁
  refine ⟨s₂, ?_, hsup₂⟩
  unfold map
  rw [hget]
  exact hs₂

theorem unmapLoop_some (hg : Good s) {p ptWork v n k : Nat}
    (hp : Locked s p) (honly : OnlyLocked s p) (hw : (s.pagers p).workPages 3 = some ptWork)
    (hn : v % 2 ^ 36 + n ≤ windowPage) (hsup : Supplied s (k + 3 * n)) :
    ∃ acc : Nat × Paging, (List.range n).foldlM
        (fun (acc : Nat × Paging) i => acc.2.unmapRound p ptWork (v + i) acc.1) (0, s)
        = some acc ∧ Supplied acc.2 k := by
  obtain ⟨acc, hacc, hsup'⟩ := loop_returns (n := n)
    (f := fun (acc : Nat × Paging) i => acc.2.unmapRound p ptWork (v + i) acc.1)
    (I := fun m acc => Supplied acc.2 (k + 3 * (n - m))) hsup (by
      intro m ⟨addr, s₁⟩ hm hs₁ hsup₁
      have hst := unmapLoop_steps hg hp hw hn m (addr, s₁) (Nat.le_of_lt hm) hs₁
      rw [show k + 3 * (n - m) = k + 3 * (n - (m + 1)) + 3 by omega] at hsup₁
      obtain ⟨s₂, hs₂, hsup₂⟩ := mapStructuresAt_some hst.good (v := v + m) (hst.locked hp)
        (hst.onlyLocked honly) hsup₁
      unfold unmapRound
      simp only [hs₂, Option.bind_eq_bind, Option.bind_some]
      exact ⟨_, rfl, hsup₂.congr rfl rfl⟩)
  exact ⟨acc, hacc, hsup'.mono (Nat.le_add_right _ _)⟩

theorem unmap_some (hg : Good s) {p virt n m : Nat} (hp : Locked s p)
    (honly : OnlyLocked s p) (hv : pageOf virt + n ≤ windowPage)
    (hsup : Supplied s (m + 3 * n)) :
    ∃ addr s', s.unmap p virt n = some (addr, s') := by
  obtain ⟨w, s₁, hget, hsup₁⟩ := getWorkpage_supplied hg honly hsup 3
  obtain ⟨hst, hw⟩ := getWorkpage_steps hg hp hget
  obtain ⟨⟨addr, s₂⟩, hs₂, -⟩ := unmapLoop_some hst.good (hst.locked hp)
    (hst.onlyLocked honly) hw hv hsup₁
  unfold unmap
  simp only [hget, Option.bind_eq_bind, Option.bind_some, hs₂]
  exact ⟨_, _, rfl⟩

theorem entryOf_some (hg : Good s) {p n : Nat} (hp : Locked s p) (honly : OnlyLocked s p)
    (hsup : Supplied s (n + 3)) (virt : Nat) :
    ∃ e s', s.entryOf p virt = some (e, s') ∧ Supplied s' n := by
  obtain ⟨s₁, hs₁, hsup₁⟩ := mapStructuresAt_some hg (v := virt >>> 12) hp honly hsup
  obtain ⟨hst, -⟩ := mapStructuresAt_steps hg hp hs₁
  obtain ⟨w, s₂, hget, hsup₂⟩ :=
    getWorkpage_supplied hst.good (hst.onlyLocked honly) hsup₁ 3
  unfold entryOf
  simp only [hs₁, Option.bind_eq_bind, Option.bind_some, hget]
  exact ⟨_, _, rfl, hsup₂⟩

theorem getFlags_some (hg : Good s) {p n : Nat} (hp : Locked s p) (honly : OnlyLocked s p)
    (hsup : Supplied s (n + 3)) (virt : Nat) :
    ∃ flags s', s.getFlags p virt = some (flags, s') ∧ Supplied s' n := by
  obtain ⟨e, s₁, hs₁, hsup₁⟩ := entryOf_some hg hp honly hsup virt
  exact ⟨e.flags, s₁, by unfold getFlags; rw [hs₁]; rfl, hsup₁⟩

/-! ## §5. `kmap`. -/

theorem probeRange_some {p m : Nat} (addr : Nat) :
    ∀ count offset s, Good s → Locked s p → OnlyLocked s p → Supplied s (m + 3 * count) →
      ∃ hit s', probeRange p addr count offset s = some (hit, s') ∧ Supplied s' m := by
  intro count
  induction count with
  | zero => intro offset s _ _ _ hsup; exact ⟨none, s, rfl, hsup⟩
  | succ count ih =>
      intro offset s hg hp honly hsup
      obtain ⟨flags, s₁, hs₁, hsup₁⟩ := getFlags_some hg hp honly
        (hsup.mono (show m + 3 * count + 3 ≤ m + 3 * (count + 1) by omega)) ((addr + offset) % 2 ^ 64)
      obtain ⟨hst, -⟩ := getFlags_steps hg hp hs₁
      simp only [probeRange, hs₁, Option.bind_eq_bind, Option.bind_some]
      by_cases hpres : flags.present = true
      · rw [if_pos hpres]
        exact ⟨_, _, rfl, hsup₁.mono (by omega)⟩
      · rw [if_neg hpres]
        exact ih (offset + 0x1000) s₁ hst.good (hst.locked hp) (hst.onlyLocked honly) hsup₁

/-- The `n` pages from `a` on are free for pager `p` and outside the window. -/
structure FreeAt (T : Flat) (p a n : Nat) : Prop where
  aligned : a % 2 ^ 12 = 0
  bound : a < 2 ^ 64
  outside : pageOf a + n ≤ windowPage
  free : ∀ i, i < n → T p (pageOf a + i) = none

/-- **The search ends**: a page that is in the way lies below the free range,
so the candidate never passes it. -/
theorem getFreeRangeLoop_some {p n a m : Nat} :
    ∀ fuel addr s, Good s → Locked s p → OnlyLocked s p → 0 < addr → addr ≤ a →
      addr % 2 ^ 12 = 0 → (a - addr) / 2 ^ 12 < fuel → FreeAt (translate s) p a n →
      Supplied s (m + 3 * n * ((a - addr) / 2 ^ 12 + 1)) →
      ∃ start s', getFreeRangeLoop p n fuel addr s = some (start, s') ∧ addr ≤ start ∧ start ≤ a
        ∧ Supplied s' m := by
  intro fuel
  induction fuel with
  | zero => intro addr s _ _ _ _ _ _ hfuel; exact absurd hfuel (Nat.not_lt_zero _)
  | succ fuel ih =>
      intro addr s hg hp honly hpos hle haddr hfuel hfree hsup
      rw [Nat.mul_add, Nat.mul_one] at hsup
      obtain ⟨hit, s₁, hprobe, hsup₁⟩ := probeRange_some
        (m := m + 3 * n * ((a - addr) / 2 ^ 12)) addr n 0 s hg hp honly (hsup.mono (by omega))
      obtain ⟨hst, hres⟩ := probeRange_steps n 0 s hg hp hprobe
      simp only [getFreeRangeLoop]
      rw [if_neg (by omega)]
      simp only [hprobe, Option.bind_eq_bind, Option.bind_some]
      cases hit with
      | none =>
          exact ⟨addr, s₁, rfl, Nat.le_refl _, hle,
            hsup₁.mono (Nat.le_add_right _ _)⟩
      | some offset =>
          obtain ⟨i, hi, ho, hmapped⟩ := hres (translate s) (fun _ _ _ _ => rfl)
          have hbelow : addr + offset < a := by
            by_contra hnot
            -- the page in the way would be one of the free ones
            have hj : ∃ j, j < n ∧ addr + offset = a + j * 0x1000 :=
              ⟨(addr + offset - a) / 0x1000, by have := hfree.aligned; omega, by
                have := hfree.aligned; omega⟩
            obtain ⟨j, hj, heq⟩ := hj
            have hpage : pageOf ((addr + offset) % 2 ^ 64) = pageOf a + j := by
              rw [heq, pageOf_probe]
              have := hfree.outside
              unfold windowPage at this
              omega
            have hsome := hmapped (by rw [hpage]; have := hfree.outside; omega)
            rw [hpage, hfree.free j hj] at hsome
            exact absurd hsome (by decide)
          have hbump := bumpHints_steps hst.good p haddr (show offset % 2 ^ 12 = 0 by omega)
          have hst' := hst.trans hbump
          have hnext : (addr + offset + 0x1000) % 2 ^ 64 = addr + offset + 0x1000 := by
            refine Nat.mod_eq_of_lt ?_
            have h1 := hfree.bound
            have h2 := hfree.aligned
            omega
          have hfree' : FreeAt (translate (s₁.bumpHints p addr offset)) p a n := by
            refine ⟨hfree.aligned, hfree.bound, hfree.outside, fun j hj => ?_⟩
            have hv := hst'.view (translate s) (fun _ _ _ _ => rfl) p (pageOf a + j)
              (hst'.locked hp).1 (by have := hfree.outside; omega)
            exact hv.trans (hfree.free j hj)
          have hal := hfree.aligned
          have hdist : (a - (addr + offset + 0x1000)) / 2 ^ 12 + 1 ≤ (a - addr) / 2 ^ 12 := by
            omega
          obtain ⟨start, s₂, hs₂, hlo, hhi, hsup₂⟩ := ih (addr + offset + 0x1000)
            (s₁.bumpHints p addr offset) hst'.good (hst'.locked hp) (hst'.onlyLocked honly)
            (by omega) (by omega) (by omega) (by omega) hfree'
            ((hsup₁.congr rfl rfl).mono (Nat.add_le_add_left (Nat.mul_le_mul_left _ hdist) _))
          refine ⟨start, s₂, ?_, by omega, hhi, hsup₂⟩
          show getFreeRangeLoop p n fuel ((addr + offset + 0x1000) % 2 ^ 64)
            (s₁.bumpHints p addr offset) = some (start, s₂)
          rw [hnext]
          exact hs₂

/-- **`kmap` returns** when a free range lies above the search hint. -/
theorem kmap_some (hg : Good s) {p phys n a : Nat} (flags : PageFlags) (hp : Locked s p)
    (honly : OnlyLocked s p) (hphys : phys >>> 12 + n ≤ 2 ^ 40)
    (hkernel : kernelStart ≤ s.firstPotentialKernelPage) (hle : s.firstPotentialKernelPage ≤ a)
    (hfree : FreeAt (translate s) p a n)
    (hsup : Supplied s (3 * n + 3 * n * ((a - s.firstPotentialKernelPage) / 2 ^ 12 + 1))) :
    ∃ r s', s.kmap p phys n flags = some (r, s') ∧ 2 ^ 12 ≤ r ∧ pageOf r + n ≤ windowPage := by
  have hhint : 0 < s.firstPotentialKernelPage := Nat.lt_of_lt_of_le (by decide) hkernel
  obtain ⟨start, s₁, hs₁, hlo, hhi, hsup₁⟩ := getFreeRangeLoop_some (m := 3 * n)
    ((2 ^ 64 - s.firstPotentialKernelPage) / 0x1000 + 2) _ s hg hp honly hhint hle hg.aligned
    (by have := hfree.bound; omega) hfree hsup
  obtain ⟨hst, hstart, -⟩ := getFreeRangeLoop_steps _ _ s hg hp hg.aligned hs₁
  have hpage : pageOf start + n ≤ windowPage := by
    have h1 := hfree.outside
    have h2 := hfree.bound
    rw [pageOf_eq] at h1 ⊢
    unfold kernelStart at hkernel
    omega
  obtain ⟨s₂, hs₂, -⟩ := map_some (m := 0) hst.good flags (hst.locked hp)
    (hst.onlyLocked honly) hpage hphys (hsup₁.mono (by omega))
  refine ⟨start + (phys &&& 0xFFF), s₂, ?_, ?_, ?_⟩
  · have hn := hfree.outside
    unfold kmap
    rw [getFreeRange_eq _ _ _ (by unfold windowPage at hn; omega)]
    simp only [hs₁, Option.bind_eq_bind, Option.bind_some, hs₂]
    rfl
  · unfold kernelStart at hkernel
    omega
  · have hoff : phys &&& 0xFFF = phys % 2 ^ 12 := by
      rw [show 0xFFF = 2 ^ 12 - 1 from rfl, Nat.and_two_pow_sub_one_eq_mod]
    rw [hoff]
    rw [pageOf_eq] at hpage ⊢
    omega

end Paging

end MierOS.Memory.Virtual
