/-
  MierOS.Memory.VirtualInvariant
  **WHY PAGE TABLES DO NOT INTERFERE.**

  Every frame that holds a page structure has ONE place: the path of indices
  that leads to it and the pager it belongs to — or no pager, below the two
  kernel directories all pagers link at slots 510 and 511.  `Inv` says that
  `owner`, the map from frames to places, is a labelling in the sense of
  `Lib.TableTree`, that the control page shows itself, and that work pages in
  use are marked present and not shared.

  The one fact about `mapStructures` everything else rests on is
  `mapStructures_spec`: it changes no translation of any pager, and leaves the
  page table of its argument in work page 3.
-/
import MierOS.Lib.TableTree
import MierOS.Memory.Virtual

namespace MierOS.Memory.Virtual

open Lib.TableTree

namespace Paging

/-! ## §1. Translations. -/

/-- The table an entry points to. -/
def next (e : PageStructuresEntry) : Option Nat := if e.present then some e.address else none

/-- What a page-table entry maps its page to. -/
def leaf (e : PageStructuresEntry) : Option (Nat × PageFlags) :=
  if e.present then some (e.address, e.flags) else none

/-- The path from the PML4 to the page table of page `v`. -/
def path (v : Nat) : List Nat := [pml4e v, pdpte v, pde v]

/-- **The translation of page `v`** in pager `p`, as the hardware walks it. -/
def translate (s : Paging) (p v : Nat) : Option (Nat × PageFlags) :=
  lookup next leaf s.mem (s.pagers p).pml4 (path v) (pte v)

/-- Page `v` is in the work-page window. -/
def InWindow (v : Nat) : Prop := path v = [511, 511, 511]

/-- Paths below the two kernel directories. -/
def sharedPath (path : List Nat) : Bool := path.take 2 = [511, 510] || path.take 2 = [511, 511]

/-- The place of a page structure: its pager, unless shared, and its path. -/
abbrev Place := Option Nat × List Nat

/-- The place under slot `i`. -/
def child (l : Place) (i : Nat) : Place :=
  (if sharedPath (l.2 ++ [i]) then none else l.1, l.2 ++ [i])

def depth (l : Place) : Nat := l.2.length

theorem depth_child (l : Place) (i : Nat) : depth (child l i) = depth l + 1 := by
  simp [depth, child]

theorem foldl_child_path (p v : Nat) :
    (path v).foldl child (some p, [])
      = (if sharedPath (path v) then none else some p, path v) := by
  simp only [path, child, List.foldl_cons, List.foldl_nil, List.nil_append, List.cons_append,
    sharedPath]
  by_cases h4 : pml4e v = 511
  · by_cases h3 : pdpte v = 510 ∨ pdpte v = 511
    · rcases h3 with h3 | h3 <;> simp [h4, h3]
    · have h0 : pdpte v ≠ 510 := fun h => h3 (Or.inl h)
      have h1 : pdpte v ≠ 511 := fun h => h3 (Or.inr h)
      simp [h0, h1]
  · simp [h4]

/-! ## §2. Entries the kernel writes. -/

theorem ofRaw_or_address {f k : Nat} (hf : f < 2 ^ 40) (hk : (k >>> 12) % 2 ^ 40 = 0) :
    (PageStructuresEntry.ofRaw (f <<< 12 ||| k)).address = f := by
  show ((f <<< 12 ||| k) >>> 12) % 2 ^ 40 = f
  rw [Nat.shiftRight_or_distrib, Nat.shiftLeft_shiftRight, Nat.or_mod_two_pow, hk, Nat.or_zero,
    Nat.mod_eq_of_lt hf]

theorem ofRaw_or_present {f k : Nat} (hk : k.testBit 0 = true) :
    (PageStructuresEntry.ofRaw (f <<< 12 ||| k)).present = true := by
  show (f <<< 12 ||| k).testBit 0 = true
  rw [Nat.testBit_or, hk, Bool.or_true]

theorem next_ofRaw {f k : Nat} (hf : f < 2 ^ 40) (hk : (k >>> 12) % 2 ^ 40 = 0)
    (hp : k.testBit 0 = true) : next (.ofRaw (f <<< 12 ||| k)) = some f := by
  unfold next
  rw [ofRaw_or_present hp, if_pos rfl, ofRaw_or_address hf hk]

@[simp] theorem next_zero : next (.ofRaw 0) = none := by decide
@[simp] theorem leaf_zero : leaf (.ofRaw 0) = none := by decide

theorem next_linkEntry {f : Nat} (hf : f < 2 ^ 40) : next (linkEntry f) = some f :=
  next_ofRaw hf (by decide) (by decide)

theorem controlEntry_address {f : Nat} (hf : f < 2 ^ 40) : (controlEntry f).address = f :=
  ofRaw_or_address hf (by decide)

theorem controlEntry_present (f : Nat) : (controlEntry f).present = true :=
  ofRaw_or_present (by decide)

theorem address_of_next {e : PageStructuresEntry} {f : Nat} (h : next e = some f) :
    e.address = f := by
  unfold next at h
  split at h
  · injection h
  · exact absurd h (by simp)

/-! ## §3. The invariant. -/

/-- **The invariant of the page structures**, with the place of every structure
frame and the frame `c` of the control page. -/
structure Inv (s : Paging) (owner : Nat → Option Place) (c : Nat) : Prop where
  labelling : Labelling next child depth 3 s.mem owner
  owned : ∀ f l, owner f = some l → s.used f = true ∧ f < 2 ^ 40
  pd0 : owner s.kernelPd0 = some (none, [511, 510])
  pd1 : owner s.kernelPd1 = some (none, [511, 511])
  control : owner c = some (none, [511, 511, 511])
  window : next (s.mem s.kernelPd1 511) = some c
  self : (s.mem c 511).address = c
  root : ∀ p, p < s.pagerCount → owner (s.pagers p).pml4 = some (some p, [])
  rootTop : ∀ f x, owner f = some (x, []) → ∃ d, next (s.mem f 511) = some d
  top : ∀ f x, owner f = some (x, [511]) → next (s.mem f 510) = some s.kernelPd0
    ∧ next (s.mem f 511) = some s.kernelPd1
  work : ∀ q k w, (s.pagers q).workPages k = some w → w < 511 ∧ (s.mem c w).present = true
  workInj : ∀ q k q' k' w, (s.pagers q).workPages k = some w →
    (s.pagers q').workPages k' = some w → q = q' ∧ k = k'

/-- Work page `k` of pager `p` is `w` and shows the frame `g`. -/
def Shows (s : Paging) (c p k w g : Nat) : Prop :=
  (s.pagers p).workPages k = some w ∧ (s.mem c w).address = g

/-- **Work pages are tidy**: those for PML4s show the PML4 of their pager, only
locked pagers hold any, and every slot marked in use is held. -/
structure Tidy (s : Paging) (c : Nat) : Prop where
  roots : ∀ q w, (s.pagers q).workPages 0 = some w → (s.mem c w).address = (s.pagers q).pml4
  slots : ∀ q k w, (s.pagers q).workPages k = some w →
    q < s.pagerCount ∧ k < 4 ∧ 0 < (s.pagers q).lockDepth
  held : ∀ i, i < 511 → (s.mem c i).present = true → ∃ q k, (s.pagers q).workPages k = some i

/-- **What internal bookkeeping preserves**: places, links and translations,
and everything about the pagers but their work pages. -/
structure Keeps (s s' : Paging) (owner owner' : Nat → Option Place) : Prop where
  places : ∀ f l, owner f = some l → owner' f = some l
  link : ∀ f l i x, owner f = some l → depth l < 3 → next (s.mem f i) = some x →
    next (s'.mem f i) = some x
  view : ∀ q v, q < s.pagerCount → ¬ InWindow v → translate s' q v = translate s q v
  pml4 : ∀ q, (s'.pagers q).pml4 = (s.pagers q).pml4
  current : ∀ q, (s'.pagers q).currentPml4e = (s.pagers q).currentPml4e
    ∧ (s'.pagers q).currentPdpte = (s.pagers q).currentPdpte
    ∧ (s'.pagers q).currentPde = (s.pagers q).currentPde
  lockDepth : ∀ q, (s'.pagers q).lockDepth = (s.pagers q).lockDepth
  held : ∀ q k w, (s.pagers q).workPages k = some w → (s'.pagers q).workPages k = some w
  count : s'.pagerCount = s.pagerCount
  hint : s'.firstPotentialKernelPage = s.firstPotentialKernelPage

theorem Keeps.refl (s : Paging) (owner : Nat → Option Place) : Keeps s s owner owner :=
  ⟨fun _ _ h => h, fun _ _ _ _ _ _ h => h, fun _ _ _ _ => rfl, fun _ => rfl,
    fun _ => ⟨rfl, rfl, rfl⟩, fun _ => rfl, fun _ _ _ h => h, rfl, rfl⟩

theorem Keeps.trans {s₁ s₂ s₃ : Paging} {o₁ o₂ o₃ : Nat → Option Place}
    (h : Keeps s₁ s₂ o₁ o₂) (h' : Keeps s₂ s₃ o₂ o₃) : Keeps s₁ s₃ o₁ o₃ where
  places f l hf := h'.places f l (h.places f l hf)
  link f l i x hf hl hn := h'.link f l i x (h.places f l hf) hl (h.link f l i x hf hl hn)
  view q v hq hv := by
    rw [h'.view q v (by rw [h.count]; exact hq) hv, h.view q v hq hv]
  pml4 q := by rw [h'.pml4, h.pml4]
  current q := by
    obtain ⟨a, b, c⟩ := h.current q
    obtain ⟨a', b', c'⟩ := h'.current q
    exact ⟨a'.trans a, b'.trans b, c'.trans c⟩
  lockDepth q := by rw [h'.lockDepth, h.lockDepth]
  held q k w hw := h'.held q k w (h.held q k w hw)
  count := by rw [h'.count, h.count]
  hint := by rw [h'.hint, h.hint]

section Basic

variable {s : Paging} {owner : Nat → Option Place} {c : Nat}

theorem Inv.windowTable_eq (h : Inv s owner c) : s.windowTable = c := address_of_next h.window

theorem Inv.workFrame_eq (h : Inv s owner c) (i : Nat) :
    s.workFrame i = (s.mem c i).address := by
  unfold workFrame; rw [h.windowTable_eq]

theorem Inv.controlFrame_eq (h : Inv s owner c) : s.controlFrame = c := by
  unfold controlFrame; rw [h.workFrame_eq, h.self]

/-- A frame whose place is not the control page's is not the control page. -/
theorem Inv.ne_control (h : Inv s owner c) {f : Nat} {l : Place} (hf : owner f = some l)
    (hl : l ≠ (none, [511, 511, 511])) : f ≠ c := by
  rintro rfl
  rw [h.control] at hf
  injection hf with hf
  exact hl hf.symm

theorem Inv.pd1_ne_control (h : Inv s owner c) : s.kernelPd1 ≠ c :=
  h.ne_control h.pd1 (by decide)

/-- Inner structures are not the control page. -/
theorem Inv.inner_ne_control (h : Inv s owner c) {f : Nat} {l : Place} (hf : owner f = some l)
    (hl : depth l < 3) : f ≠ c :=
  h.ne_control hf (by rintro rfl; exact absurd hl (by decide))

/-- The place at the end of the path of a page. -/
theorem Inv.place_of_descend (h : Inv s owner c) {p v f : Nat} (hp : p < s.pagerCount)
    (hd : descend next s.mem (s.pagers p).pml4 (path v) = some f) :
    owner f = some (if sharedPath (path v) then none else some p, path v) := by
  rw [← foldl_child_path]
  exact descend_owner depth_child h.labelling (path v) _ _ f (h.root p hp) (Nat.le_refl 3) hd

/-- The page table of a page outside the window is not the control page. -/
theorem Inv.descend_ne_control (h : Inv s owner c) {p v : Nat} (hp : p < s.pagerCount)
    (hv : ¬ InWindow v) : descend next s.mem (s.pagers p).pml4 (path v) ≠ some c := by
  intro hd
  have hown := h.place_of_descend hp hd
  rw [h.control] at hown
  injection hown with hown
  exact hv (congrArg Prod.snd hown).symm

end Basic

/-! ## §4. Writing control slots. -/

@[simp] theorem setEntry_mem (s : Paging) (g j f i : Nat) (e : PageStructuresEntry) :
    (s.setEntry g j e).mem f i = if f = g ∧ i = j then e else s.mem f i := rfl

@[simp] theorem zeroFrame_mem (s : Paging) (g f i : Nat) :
    (s.zeroFrame g).mem f i = if f = g then .ofRaw 0 else s.mem f i := rfl

section Control

variable {s : Paging} {owner : Nat → Option Place} {c : Nat}

/-- **Writing a control slot** other than the last one is invisible to every
translation outside the window. -/
theorem Inv.setControl (h : Inv s owner c) {w : Nat} {e : PageStructuresEntry} (hw : w < 511)
    (hheld : e.present = true ∨ ∀ q k, (s.pagers q).workPages k ≠ some w) :
    Inv (s.setControl w e) owner c ∧ Keeps s (s.setControl w e) owner owner := by
  have hc := h.controlFrame_eq
  have hmem : ∀ f i, (s.setControl w e).mem f i = if f = c ∧ i = w then e else s.mem f i := by
    intro f i
    unfold Paging.setControl
    rw [setEntry_mem, hc]
  have hother : ∀ f i, f ≠ c → (s.setControl w e).mem f i = s.mem f i := by
    intro f i hf
    rw [hmem, if_neg (fun hfi => hf hfi.1)]
  have hdepth : depth (none, [511, 511, 511]) = 3 := rfl
  refine ⟨?_, ?_⟩
  · refine ⟨h.labelling.write_leaf h.control hdepth (fun f i hf => hother f i hf), h.owned, h.pd0,
      h.pd1, h.control, ?_, ?_, h.root, ?_, ?_, ?_, h.workInj⟩
    · show next ((s.setControl w e).mem s.kernelPd1 511) = some c
      rw [hother _ _ h.pd1_ne_control]; exact h.window
    · rw [hmem, if_neg (by rintro ⟨_, h511⟩; omega)]; exact h.self
    · intro f x hf
      rw [hother _ _ (h.inner_ne_control hf (show 0 < 3 by decide))]
      exact h.rootTop f x hf
    · intro f x hf
      have hfc := h.inner_ne_control hf (show 1 < 3 by decide)
      rw [hother _ _ hfc, hother _ _ hfc]
      exact h.top f x hf
    · intro q k x hx
      obtain ⟨hlt, hpres⟩ := h.work q k x hx
      refine ⟨hlt, ?_⟩
      rw [hmem]
      split
      · rename_i hxw
        rcases hheld with he | hfree
        · exact he
        · exact absurd (hxw.2 ▸ hx) (hfree q k)
      · exact hpres
  · refine ⟨fun _ _ hf => hf, ?_, ?_, fun _ => rfl, fun _ => ⟨rfl, rfl, rfl⟩, fun _ => rfl,
      fun _ _ _ hx => hx, rfl, rfl⟩
    · intro f l i x hf hl hn
      rw [hother f i (h.inner_ne_control hf hl)]; exact hn
    · intro q v hq hv
      have hlook := lookup_write_leaf leaf depth_child h.labelling h.control hdepth hmem
        (h.root q hq) (show 0 + (path v).length = 3 from rfl) (pte v)
      rw [if_neg (fun hd => h.descend_ne_control hq hv hd.1)] at hlook
      exact hlook

/-- Work pages other than the one written keep what they show. -/
theorem Shows.setControl {w p k x g : Nat} {e : PageStructuresEntry}
    (hne : x ≠ w) (hs : Shows s c p k x g) : Shows (s.setControl w e) c p k x g := by
  refine ⟨hs.1, ?_⟩
  unfold Paging.setControl
  rw [setEntry_mem, if_neg (fun hx => hne hx.2)]
  exact hs.2

theorem shows_setControl (h : Inv s owner c) {w p k : Nat} {e : PageStructuresEntry}
    (hw : (s.pagers p).workPages k = some w) :
    Shows (s.setControl w e) c p k w e.address := by
  refine ⟨hw, ?_⟩
  unfold Paging.setControl
  rw [setEntry_mem, h.controlFrame_eq, if_pos ⟨rfl, rfl⟩]

end Control

/-! ## §5. Work pages. -/

section Work

variable {s s' : Paging} {owner : Nat → Option Place} {c : Nat}

/-- The invariant does not see the pagers beyond PML4s and work pages. -/
theorem Inv.setPagers (h : Inv s owner c) {pagers : Nat → Pager}
    (hpml4 : ∀ q, (pagers q).pml4 = (s.pagers q).pml4)
    (hwork : ∀ q k w, (pagers q).workPages k = some w → w < 511 ∧ (s.mem c w).present = true)
    (hinj : ∀ q k q' k' w, (pagers q).workPages k = some w →
      (pagers q').workPages k' = some w → q = q' ∧ k = k') :
    Inv { s with pagers := pagers } owner c := by
  refine ⟨h.labelling, h.owned, h.pd0, h.pd1, h.control, h.window, h.self, ?_, h.rootTop, h.top,
    hwork, hinj⟩
  intro q hq
  show owner (pagers q).pml4 = _
  rw [hpml4]
  exact h.root q hq

/-- Changing no more of the pagers than their work pages, and dropping none. -/
theorem Keeps.setPagers {pagers : Nat → Pager}
    (hpml4 : ∀ q, (pagers q).pml4 = (s.pagers q).pml4)
    (hcurrent : ∀ q, (pagers q).currentPml4e = (s.pagers q).currentPml4e
      ∧ (pagers q).currentPdpte = (s.pagers q).currentPdpte
      ∧ (pagers q).currentPde = (s.pagers q).currentPde)
    (hlock : ∀ q, (pagers q).lockDepth = (s.pagers q).lockDepth)
    (hheld : ∀ q k w, (s.pagers q).workPages k = some w → (pagers q).workPages k = some w) :
    Keeps s { s with pagers := pagers } owner owner := by
  refine ⟨fun _ _ h => h, fun _ _ _ _ _ _ h => h, fun q v _ _ => ?_, hpml4, hcurrent, hlock,
    hheld, rfl, rfl⟩
  show lookup next leaf s.mem (pagers q).pml4 (path v) (pte v) = translate s q v
  rw [hpml4]
  rfl

/-- `work_pages[slot] = w`. -/
def holdWork (s : Paging) (p slot w : Nat) : Paging :=
  s.setPager p { s.pagers p with
    workPages := fun k => if k = slot then some w else (s.pagers p).workPages k }

theorem holdWork_workPages (s : Paging) (p slot w q k : Nat) :
    ((s.holdWork p slot w).pagers q).workPages k
      = if q = p ∧ k = slot then some w else (s.pagers q).workPages k := by
  unfold holdWork setPager
  by_cases hq : q = p
  · subst hq
    by_cases hk : k = slot <;> simp [hk]
  · simp [hq]

/-- `holdWork` touches work pages only. -/
theorem holdWork_pager (s : Paging) (p slot w q : Nat) :
    ((s.holdWork p slot w).pagers q).pml4 = (s.pagers q).pml4
      ∧ (((s.holdWork p slot w).pagers q).currentPml4e = (s.pagers q).currentPml4e
        ∧ ((s.holdWork p slot w).pagers q).currentPdpte = (s.pagers q).currentPdpte
        ∧ ((s.holdWork p slot w).pagers q).currentPde = (s.pagers q).currentPde)
      ∧ ((s.holdWork p slot w).pagers q).lockDepth = (s.pagers q).lockDepth := by
  unfold holdWork setPager
  by_cases hq : q = p
  · subst hq; simp
  · simp [hq]

/-- Handing a marked slot nobody holds to a pager without one. -/
theorem Inv.holdWork (h : Inv s owner c) {p slot w : Nat} (hw : w < 511)
    (hpres : (s.mem c w).present = true) (hfree : ∀ q k, (s.pagers q).workPages k ≠ some w)
    (hnone : (s.pagers p).workPages slot = none) :
    Inv (s.holdWork p slot w) owner c ∧ Keeps s (s.holdWork p slot w) owner owner := by
  refine ⟨h.setPagers (fun q => (holdWork_pager s p slot w q).1) ?_ ?_,
    Keeps.setPagers (fun q => (holdWork_pager s p slot w q).1)
      (fun q => (holdWork_pager s p slot w q).2.1) (fun q => (holdWork_pager s p slot w q).2.2) ?_⟩
  · intro q k x hx
    have hx := (holdWork_workPages s p slot w q k).symm.trans hx
    split at hx
    · injection hx with hx
      subst hx
      exact ⟨hw, hpres⟩
    · exact h.work q k x hx
  · intro q k q' k' x hx hx'
    have hx := (holdWork_workPages s p slot w q k).symm.trans hx
    have hx' := (holdWork_workPages s p slot w q' k').symm.trans hx'
    split at hx <;> split at hx'
    · rename_i hq hq'
      exact ⟨hq.1.trans hq'.1.symm, hq.2.trans hq'.2.symm⟩
    · injection hx with hx
      subst hx
      exact absurd hx' (hfree q' k')
    · injection hx' with hx'
      subst hx'
      exact absurd hx (hfree q k)
    · exact h.workInj q k q' k' x hx hx'
  · intro q k x hx
    refine (holdWork_workPages s p slot w q k).trans ?_
    rw [if_neg, hx]
    rintro ⟨rfl, rfl⟩
    rw [hnone] at hx
    exact absurd hx (by simp)

/-- What acquiring work page `w` for `slot` of pager `p` does. -/
structure Acquired (s s' : Paging) (owner : Nat → Option Place) (c p slot w : Nat) : Prop where
  inv : Inv s' owner c
  keeps : Keeps s s' owner owner
  shown : (s'.pagers p).workPages slot = some w
  others : ∀ q k, ¬ (q = p ∧ k = slot) → (s'.pagers q).workPages k = (s.pagers q).workPages k
  address : ∀ i, (s'.mem c i).address = (s.mem c i).address
  marked : ∀ i, (s'.mem c i).present = true → (s.mem c i).present = true ∨ i = w
  rest : ∀ f i, f ≠ c → s'.mem f i = s.mem f i
  used : s'.used = s.used
  supply : s'.supply = s.supply

/-- `aquireWorkpageIndex` marks a slot nobody holds. -/
theorem aquireWorkpageIndex_spec (h : Inv s owner c) {w : Nat}
    (hs : s.aquireWorkpageIndex = some (w, s')) :
    w < 511 ∧ (∀ q k, (s.pagers q).workPages k ≠ some w)
      ∧ s' = s.setControl w { s.mem c w with present := true } := by
  unfold aquireWorkpageIndex at hs
  rw [h.controlFrame_eq] at hs
  split at hs
  · exact absurd hs (by simp)
  · rename_i i hfind
    simp only [Option.some.injEq, Prod.mk.injEq] at hs
    obtain ⟨rfl, rfl⟩ := hs
    have hmem : i ∈ List.range 511 := List.mem_of_find?_eq_some hfind
    have hfree := List.find?_some hfind
    refine ⟨List.mem_range.mp hmem, fun q k hk => ?_, rfl⟩
    rw [(h.work q k i hk).2] at hfree
    exact absurd hfree (by decide)

theorem getWorkpage_spec (h : Inv s owner c) {p slot w : Nat}
    (hs : s.getWorkpage p slot = some (w, s')) : Acquired s s' owner c p slot w := by
  unfold getWorkpage at hs
  split at hs
  · rename_i w' hw
    simp only [Option.some.injEq, Prod.mk.injEq] at hs
    obtain ⟨rfl, rfl⟩ := hs
    exact ⟨h, Keeps.refl _ _, hw, fun _ _ _ => rfl, fun _ => rfl, fun _ hi => Or.inl hi,
      fun _ _ _ => rfl, rfl, rfl⟩
  · rename_i hnone
    rw [Option.map_eq_some_iff] at hs
    obtain ⟨⟨w', s₁⟩, hacq, hs⟩ := hs
    simp only [Prod.mk.injEq] at hs
    obtain ⟨rfl, rfl⟩ := hs
    obtain ⟨hlt, hfree, rfl⟩ := aquireWorkpageIndex_spec h hacq
    obtain ⟨hinv, hkeep⟩ := h.setControl hlt
      (Or.inl (rfl : ({ s.mem c w' with present := true } : PageStructuresEntry).present = true))
    have hmem : ∀ f i, (s.setControl w' { s.mem c w' with present := true }).mem f i
        = if f = c ∧ i = w' then { s.mem c w' with present := true } else s.mem f i := by
      intro f i
      unfold Paging.setControl
      rw [setEntry_mem, h.controlFrame_eq]
    obtain ⟨hinv', hkeep'⟩ := hinv.holdWork hlt (by rw [hmem, if_pos ⟨rfl, rfl⟩]) hfree hnone
    refine ⟨hinv', hkeep.trans hkeep', ?_, ?_, ?_, ?_, ?_, rfl, rfl⟩
    · exact (holdWork_workPages _ p slot w' p slot).trans (if_pos ⟨rfl, rfl⟩)
    · intro q k hqk
      exact (holdWork_workPages _ p slot w' q k).trans (if_neg hqk)
    · intro i
      refine (congrArg PageStructuresEntry.address (hmem c i)).trans ?_
      split
      · rename_i hi; rw [hi.2]
      · rfl
    · intro i hi
      have hi := (congrArg PageStructuresEntry.present (hmem c i)).symm.trans hi
      split at hi
      · rename_i hiw; exact Or.inr hiw.2
      · exact Or.inl hi
    · intro f i hf
      exact (hmem f i).trans (if_neg (fun hfi => hf hfi.1))

/-- Every work page keeps what it shows. -/
theorem Acquired.shows {p slot w : Nat} (h : Acquired s s' owner c p slot w) {q k x g : Nat}
    (hs : Shows s c q k x g) : Shows s' c q k x g :=
  ⟨h.keeps.held q k x hs.1, (h.address x).trans hs.2⟩

theorem Acquired.slots {p slot w : Nat} (h : Acquired s s' owner c p slot w) (ht : Tidy s c)
    (hp : p < s.pagerCount) (hslot4 : slot < 4) (hlock : 0 < (s.pagers p).lockDepth) :
    ∀ q k x, (s'.pagers q).workPages k = some x →
      q < s'.pagerCount ∧ k < 4 ∧ 0 < (s'.pagers q).lockDepth := by
  intro q k x hx
  rw [h.keeps.lockDepth, h.keeps.count]
  by_cases hqk : q = p ∧ k = slot
  · rw [hqk.1, hqk.2]
    exact ⟨hp, hslot4, hlock⟩
  · rw [h.others q k hqk] at hx
    exact ht.slots q k x hx

theorem Acquired.held {p slot w : Nat} (h : Acquired s s' owner c p slot w) (ht : Tidy s c) :
    ∀ i, i < 511 → (s'.mem c i).present = true → ∃ q k, (s'.pagers q).workPages k = some i := by
  intro i hi hpres
  rcases h.marked i hpres with hold | rfl
  · obtain ⟨q, k, hqk⟩ := ht.held i hi hold
    exact ⟨q, k, h.keeps.held q k i hqk⟩
  · exact ⟨p, slot, h.shown⟩

/-- A locked pager may acquire work pages 1 to 3. -/
theorem Acquired.tidy {p slot w : Nat} (h : Acquired s s' owner c p slot w) (ht : Tidy s c)
    (hp : p < s.pagerCount) (hslot : 0 < slot) (hslot4 : slot < 4)
    (hlock : 0 < (s.pagers p).lockDepth) : Tidy s' c := by
  refine ⟨?_, h.slots ht hp hslot4 hlock, h.held ht⟩
  intro q x hx
  rw [h.others q 0 (by omega)] at hx
  rw [h.address, h.keeps.pml4]
  exact ht.roots q x hx

end Work

/-! ## §6. Linking a new structure. -/

/-- `palloc(1)` returned `f`, which is zeroed and linked in slot `j` of `g`. -/
def linkFresh (s : Paging) (g j f : Nat) : Paging :=
  { s with
    mem := fun x i =>
      if x = f then .ofRaw 0 else if x = g ∧ i = j then linkEntry f else s.mem x i
    used := fun x => if x = f then true else s.used x
    supply := s.supply.tail }

/-- The place of the frame just linked. -/
def placeFresh (owner : Nat → Option Place) (l : Place) (j f : Nat) : Nat → Option Place :=
  fun x => if x = f then some (child l j) else owner x

/-- A frame with a place is none of those without. -/
theorem placed_ne {owner : Nat → Option Place} {x f : Nat} {l : Place} (hx : owner x = some l)
    (hf : owner f = none) : x ≠ f := by
  rintro rfl
  rw [hx] at hf
  cases hf

theorem placeFresh_old {owner : Nat → Option Place} {f j x : Nat} {l l' : Place}
    (hf : owner f = none) (hx : owner x = some l') : placeFresh owner l j f x = some l' := by
  unfold placeFresh
  rw [if_neg (placed_ne hx hf), hx]

theorem placeFresh_cases {owner : Nat → Option Place} {f j x : Nat} {l l' : Place}
    (hx : placeFresh owner l j f x = some l') : owner x = some l' ∨ (x = f ∧ l' = child l j) := by
  unfold placeFresh at hx
  split at hx
  · rename_i hxf
    injection hx with hx
    exact Or.inr ⟨hxf, hx.symm⟩
  · exact Or.inl hx

theorem placeFresh_unplaced {owner : Nat → Option Place} {f j x : Nat} {l : Place} (hne : x ≠ f)
    (hx : owner x = none) : placeFresh owner l j f x = none := by
  unfold placeFresh
  rw [if_neg hne, hx]

section Link

variable {s s' : Paging} {owner : Nat → Option Place} {c : Nat}

/-- A frame that is not in use has no place. -/
theorem Inv.unused_unplaced (h : Inv s owner c) {f : Nat} (hf : s.used f = false) :
    owner f = none := by
  cases hown : owner f with
  | none => rfl
  | some l =>
      rw [(h.owned f l hown).1] at hf
      exact absurd hf (by decide)

theorem Inv.linked (h : Inv s owner c) {g j f : Nat} {l : Place} (hg : owner g = some l)
    (hj : next (s.mem g j) = none) (hf : s.used f = false) (hf40 : f < 2 ^ 40) :
    Linked next leaf s.mem (s.linkFresh g j f).mem g j f := by
  have hfnone := h.unused_unplaced hf
  have hne : f ≠ g := (placed_ne hg hfnone).symm
  refine ⟨hne, hj, ?_, ?_, ?_⟩
  · show next (if g = f then .ofRaw 0 else if g = g ∧ j = j then linkEntry f else s.mem g j) = _
    rw [if_neg hne.symm, if_pos ⟨rfl, rfl⟩, next_linkEntry hf40]
  · intro i
    show next (if f = f then .ofRaw 0 else _) = none ∧ leaf (if f = f then .ofRaw 0 else _) = none
    rw [if_pos rfl]
    exact ⟨next_zero, leaf_zero⟩
  · intro x i hx hslot
    show (if x = f then .ofRaw 0 else if x = g ∧ i = j then linkEntry f else s.mem x i) = _
    rw [if_neg hx, if_neg hslot]

/-- Pointers that exist stay when a structure is linked. -/
theorem Inv.link_next (h : Inv s owner c) {g j f x i y : Nat} {l l' : Place}
    (hg : owner g = some l) (hj : next (s.mem g j) = none) (hf : s.used f = false)
    (hf40 : f < 2 ^ 40) (hx : owner x = some l') (hy : next (s.mem x i) = some y) :
    (s.linkFresh g j f).mem x i = s.mem x i := by
  refine (h.linked hg hj hf hf40).rest x i ?_ ?_
  · exact placed_ne hx (h.unused_unplaced hf)
  · rintro ⟨rfl, rfl⟩
    rw [hj] at hy
    exact absurd hy (by simp)

/-- **Linking a fresh structure** keeps the invariant and every translation. -/
theorem Inv.linkFresh (h : Inv s owner c) {g j f : Nat} {l : Place} (hg : owner g = some l)
    (hl : depth l < 3) (hj : next (s.mem g j) = none) (hf : s.used f = false)
    (hf40 : f < 2 ^ 40) :
    Inv (s.linkFresh g j f) (placeFresh owner l j f) c
      ∧ Keeps s (s.linkFresh g j f) owner (placeFresh owner l j f) := by
  have hlink := h.linked hg hj hf hf40
  have hfnone := h.unused_unplaced hf
  have hold : ∀ x l', owner x = some l' → placeFresh owner l j f x = some l' :=
    fun x l' hx => placeFresh_old hfnone hx
  have hnew : ∀ x l', placeFresh owner l j f x = some l' → owner x = some l' ∨
      (x = f ∧ l' = child l j) := fun x l' hx => placeFresh_cases hx
  have hkeep : ∀ x l' i y, owner x = some l' → next (s.mem x i) = some y →
      (s.linkFresh g j f).mem x i = s.mem x i :=
    fun x l' i y hx hy => h.link_next hg hj hf hf40 hx hy
  -- the slots above the kernel directories are never the empty one
  have hnotTop : ∀ x, child l j ≠ (x, [511]) := by
    intro x hx
    have hl2 : l.2 ++ [j] = [] ++ [511] := congrArg Prod.snd hx
    obtain ⟨hnil, hj511⟩ := List.append_inj' hl2 rfl
    obtain ⟨d, hd⟩ := h.rootTop g l.1 (by rw [hg, ← hnil])
    rw [List.cons.injEq] at hj511
    rw [hj511.1, hd] at hj
    exact absurd hj (by simp)
  have hctl : ∀ i, (s.linkFresh g j f).mem c i = s.mem c i := by
    intro i
    refine hlink.rest c i ?_ ?_
    · exact placed_ne h.control hfnone
    · rintro ⟨rfl, _⟩
      exact h.inner_ne_control hg hl rfl
  refine ⟨⟨h.labelling.link hg hfnone hlink, ?_, hold _ _ h.pd0, hold _ _ h.pd1,
    hold _ _ h.control, ?_, ?_, fun p hp => hold _ _ (h.root p hp), ?_, ?_, ?_, h.workInj⟩,
    ⟨hold, ?_, ?_, fun _ => rfl, fun _ => ⟨rfl, rfl, rfl⟩, fun _ => rfl, fun _ _ _ hw => hw, rfl,
      rfl⟩⟩
  · intro x l' hx
    show (if x = f then true else s.used x) = true ∧ x < 2 ^ 40
    rcases hnew x l' hx with hx | ⟨rfl, _⟩
    · obtain ⟨hu, h40⟩ := h.owned x l' hx
      refine ⟨?_, h40⟩
      split
      · rfl
      · exact hu
    · exact ⟨if_pos rfl, hf40⟩
  · show next ((s.linkFresh g j f).mem s.kernelPd1 511) = some c
    rw [hkeep _ _ 511 c h.pd1 h.window]
    exact h.window
  · rw [hctl]; exact h.self
  · intro x y hx
    rcases hnew x _ hx with hx | ⟨_, hx⟩
    · obtain ⟨d, hd⟩ := h.rootTop x y hx
      exact ⟨d, by rw [hkeep x _ 511 d hx hd]; exact hd⟩
    · have hlen : 0 = (l.2 ++ [j]).length := congrArg (fun q : Place => q.2.length) hx
      rw [List.length_append, List.length_singleton] at hlen
      omega
  · intro x y hx
    rcases hnew x _ hx with hx | ⟨_, hx⟩
    · obtain ⟨h0, h1⟩ := h.top x y hx
      rw [hkeep x _ 510 _ hx h0, hkeep x _ 511 _ hx h1]
      exact ⟨h0, h1⟩
    · exact absurd hx.symm (hnotTop y)
  · intro q k w hw
    rw [hctl]
    exact h.work q k w hw
  · intro x l' i y hx _ hy
    rw [hkeep x l' i y hx hy]
    exact hy
  · intro q v hq _
    exact lookup_link depth_child h.labelling hg hl hfnone hlink (path v) _ _ (h.root q hq) rfl _

end Link

/-! ## §7. `mapStructures`. -/

section Structures

variable {s s' : Paging} {owner : Nat → Option Place} {c : Nat}

theorem palloc_cases {f : Nat} (hs : s.palloc = some (f, s')) :
    s.used f = false ∧ f < 2 ^ 40
      ∧ s' = { s with
          supply := s.supply.tail
          used := fun x => if x = f then true else s.used x } := by
  unfold palloc at hs
  split at hs
  · exact absurd hs (by simp)
  · rename_i f' rest hsup
    split at hs
    · exact absurd hs (by simp)
    · rename_i hfree
      simp only [Option.some.injEq, Prod.mk.injEq] at hs
      obtain ⟨rfl, rfl⟩ := hs
      rw [not_or, Bool.not_eq_true, Nat.not_le] at hfree
      rw [hsup]
      exact ⟨hfree.1, hfree.2, rfl⟩

/-- The two ways through one level of `mapStructures`. -/
theorem mapLevel_cases {p slot parent index work : Nat}
    (hs : s.mapLevel p slot parent index = some (work, s')) :
    ∃ s₁, s.getWorkpage p slot = some (work, s₁) ∧
      (((s₁.mem (s₁.workFrame parent) index).present = true
          ∧ s' = s₁.setControl work
              (controlEntry (s₁.mem (s₁.workFrame parent) index).address))
        ∨ ((s₁.mem (s₁.workFrame parent) index).present = false
          ∧ ∃ f s₂ s₃, s₁.palloc = some (f, s₂)
            ∧ s₃ = (s₂.setEntry (s₂.workFrame parent) index (linkEntry f)).setControl work
                (controlEntry f)
            ∧ s' = s₃.zeroFrame (s₃.workFrame work))) := by
  unfold mapLevel at hs
  simp only [Option.bind_eq_bind, Option.bind_eq_some_iff] at hs
  obtain ⟨⟨w, s₁⟩, hget, hs⟩ := hs
  refine ⟨s₁, ?_⟩
  dsimp only at hs
  split at hs
  · rename_i hpres
    simp only [pure, Option.some.injEq, Prod.mk.injEq] at hs
    obtain ⟨rfl, rfl⟩ := hs
    exact ⟨hget, Or.inl ⟨hpres, rfl⟩⟩
  · rename_i hpres
    rw [Option.bind_eq_some_iff] at hs
    obtain ⟨⟨f, s₂⟩, hpal, hs⟩ := hs
    simp only [pure, Option.some.injEq, Prod.mk.injEq] at hs
    obtain ⟨rfl, rfl⟩ := hs
    exact ⟨hget, Or.inr ⟨by simpa using hpres, f, s₂, _, hpal, rfl, rfl⟩⟩

theorem next_eq_none {e : PageStructuresEntry} (h : e.present = false) : next e = none := by
  unfold next
  rw [h]
  rfl

theorem next_of_present {e : PageStructuresEntry} (h : e.present = true) :
    next e = some e.address := by
  unfold next
  rw [if_pos h]

/-- Writing the slot of a work page someone holds marks no other slot. -/
theorem Tidy.held_setControl (ht : Tidy s c) {p slot work : Nat} {e : PageStructuresEntry}
    (hheld : (s.pagers p).workPages slot = some work) :
    ∀ i, i < 511 → ((s.setControl work e).mem c i).present = true →
      ∃ q k, (s.pagers q).workPages k = some i := by
  intro i hi hpres
  by_cases hiw : i = work
  · exact ⟨p, slot, hiw ▸ hheld⟩
  · unfold Paging.setControl at hpres
    rw [setEntry_mem, if_neg (fun h => hiw h.2)] at hpres
    exact ht.held i hi hpres

/-- Showing a frame in the work page of a slot other than the PML4's. -/
theorem Inv.showFrame (h : Inv s owner c) (ht : Tidy s c) {p slot work f : Nat}
    (hheld : (s.pagers p).workPages slot = some work) (hslot : 0 < slot) (hf : f < 2 ^ 40) :
    Inv (s.setControl work (controlEntry f)) owner c
      ∧ Keeps s (s.setControl work (controlEntry f)) owner owner
      ∧ Tidy (s.setControl work (controlEntry f)) c
      ∧ Shows (s.setControl work (controlEntry f)) c p slot work f := by
  obtain ⟨hinv, hkeep⟩ := h.setControl (h.work p slot work hheld).1
    (Or.inl (controlEntry_present f))
  refine ⟨hinv, hkeep, ⟨?_, ht.slots, ht.held_setControl hheld⟩, ?_⟩
  · intro q w hw
    have hne : w ≠ work := by
      rintro rfl
      have := (h.workInj q 0 p slot w hw hheld).2
      omega
    have hshow : Shows s c q 0 w (s.pagers q).pml4 := ⟨hw, ht.roots q w hw⟩
    exact (hshow.setControl hne).2
  · have hshow := shows_setControl h (e := controlEntry f) hheld
    rw [controlEntry_address hf] at hshow
    exact hshow

theorem Inv.unused_ne_control (h : Inv s owner c) {f : Nat} (hf : s.used f = false) : f ≠ c :=
  (placed_ne h.control (h.unused_unplaced hf)).symm

/-- The source links, shows and then clears through the window; that is the
same as linking a cleared frame and showing it. -/
theorem Inv.link_then_show (h : Inv s owner c) {g j f work : Nat} {l : Place}
    (hg : owner g = some l) (hl : depth l < 3) (hj : next (s.mem g j) = none)
    (hf : s.used f = false) (hf40 : f < 2 ^ 40) {s₂ s₃ : Paging}
    (hs₂ : s₂ = { s with
      supply := s.supply.tail
      used := fun x => if x = f then true else s.used x })
    (hs₃ : s₃ = (s₂.setEntry g j (linkEntry f)).setControl work (controlEntry f)) :
    s₃.zeroFrame (s₃.workFrame work) = (s.linkFresh g j f).setControl work (controlEntry f) := by
  have hfc : f ≠ c := h.unused_ne_control hf
  have hgc : g ≠ c := h.inner_ne_control hg hl
  have hpd1 : ¬ (s.kernelPd1 = g ∧ 511 = j) := by
    rintro ⟨rfl, rfl⟩
    rw [h.window] at hj
    exact absurd hj (by simp)
  have hctl₂ : (s₂.setEntry g j (linkEntry f)).controlFrame = c := by
    have hpd : (s₂.setEntry g j (linkEntry f)).kernelPd1 = s.kernelPd1 := by rw [hs₂]; rfl
    have hmem₂ : ∀ x i, s₂.mem x i = s.mem x i := fun x i => by rw [hs₂]
    unfold controlFrame workFrame windowTable
    rw [hpd, setEntry_mem _ _ _ s.kernelPd1, if_neg hpd1, hmem₂, address_of_next h.window,
      setEntry_mem, if_neg (fun hcg => hgc hcg.1.symm), hmem₂]
    exact h.self
  have hmem₃ : ∀ x i, s₃.mem x i = if x = c ∧ i = work then controlEntry f
      else if x = g ∧ i = j then linkEntry f else s.mem x i := by
    intro x i
    rw [hs₃]
    unfold Paging.setControl
    rw [setEntry_mem, hctl₂, setEntry_mem, hs₂]
  have hwork : s₃.workFrame work = f := by
    have hpd : s₃.kernelPd1 = s.kernelPd1 := by rw [hs₃, hs₂]; rfl
    unfold workFrame windowTable
    rw [hpd, hmem₃ s.kernelPd1, if_neg (fun hc => h.pd1_ne_control hc.1), if_neg hpd1,
      address_of_next h.window, hmem₃, if_pos ⟨rfl, rfl⟩, controlEntry_address hf40]
  have hinv := (h.linkFresh hg hl hj hf hf40).1
  have hmem : (s₃.zeroFrame f).mem
      = ((s.linkFresh g j f).setControl work (controlEntry f)).mem := by
    funext x i
    unfold Paging.setControl
    rw [setEntry_mem, hinv.controlFrame_eq, zeroFrame_mem, hmem₃]
    show _ = if x = c ∧ i = work then controlEntry f
      else if x = f then .ofRaw 0 else if x = g ∧ i = j then linkEntry f else s.mem x i
    by_cases hx : x = f
    · rw [if_pos hx, if_neg (fun hc => hfc (hx.symm.trans hc.1)), if_pos hx]
    · rw [if_neg hx, if_neg hx]
  rw [hwork]
  subst hs₂
  subst hs₃
  simp only [Paging.setControl, setEntry, zeroFrame, Paging.linkFresh] at hmem ⊢
  rw [hmem]

/-- Linking a fresh structure below a place writes no control slot. -/
theorem Inv.linkFresh_control (h : Inv s owner c) {g j f : Nat} {l : Place}
    (hg : owner g = some l) (hl : depth l < 3) (hf : s.used f = false) (i : Nat) :
    (s.linkFresh g j f).mem c i = s.mem c i := by
  show (if c = f then .ofRaw 0 else if c = g ∧ i = j then linkEntry f else s.mem c i) = _
  rw [if_neg (h.unused_ne_control hf).symm,
    if_neg (fun hcg => h.inner_ne_control hg hl hcg.1.symm)]

/-- **One level, on the structure it is called for**: the structure under the
entry is shown, and linked before that if there is none. -/
theorem mapLevel_on (h : Inv s owner c) {p slot pslot parent index g work : Nat} {l : Place}
    (hparent : Shows s c p pslot parent g) (hg : owner g = some l) (hl : depth l < 3)
    (hs : s.mapLevel p slot parent index = some (work, s')) :
    ∃ s₁, s.getWorkpage p slot = some (work, s₁) ∧
      ((∃ f, next (s₁.mem g index) = some f ∧ s' = s₁.setControl work (controlEntry f))
        ∨ (next (s₁.mem g index) = none ∧ ∃ f, s₁.used f = false ∧ f < 2 ^ 40
          ∧ s' = (s₁.linkFresh g index f).setControl work (controlEntry f))) := by
  obtain ⟨s₁, hget, hcases⟩ := mapLevel_cases hs
  have hacq := getWorkpage_spec h hget
  have hframe : s₁.workFrame parent = g := by
    rw [hacq.inv.workFrame_eq, hacq.address, hparent.2]
  rw [hframe] at hcases
  refine ⟨s₁, hget, ?_⟩
  rcases hcases with ⟨hpres, rfl⟩ | ⟨habs, f, s₂, s₃, hpal, hs₃, hs'⟩
  · exact Or.inl ⟨_, next_of_present hpres, rfl⟩
  · -- linking and showing through the window comes to linking first
    obtain ⟨hfree, hf40, hs₂⟩ := palloc_cases hpal
    have hj := next_eq_none habs
    rw [show s₂.workFrame parent = g by rw [hs₂]; exact hframe] at hs₃
    rw [hacq.inv.link_then_show hg hl hj hfree hf40 hs₂ hs₃] at hs'
    exact Or.inr ⟨hj, f, hfree, hf40, hs'⟩

/-- **One level**: the structure under the entry is there and shown. -/
theorem mapLevel_spec (h : Inv s owner c) (ht : Tidy s c)
    {p slot pslot parent index g work : Nat} {l : Place} (hparent : Shows s c p pslot parent g)
    (hg : owner g = some l) (hl : depth l < 3) (hp : p < s.pagerCount) (hslot : 0 < slot)
    (hslot4 : slot < 4) (hlock : 0 < (s.pagers p).lockDepth)
    (hs : s.mapLevel p slot parent index = some (work, s')) :
    ∃ owner' f, Inv s' owner' c ∧ Keeps s s' owner owner' ∧ Tidy s' c
      ∧ Shows s' c p slot work f ∧ next (s'.mem g index) = some f
      ∧ owner' f = some (child l index) := by
  obtain ⟨s₁, hget, hcases⟩ := mapLevel_on h hparent hg hl hs
  have hacq := getWorkpage_spec h hget
  have hinv := hacq.inv
  have ht₁ := hacq.tidy ht hp hslot hslot4 hlock
  rcases hcases with ⟨f, hnext, rfl⟩ | ⟨hj, f, hfree, hf40, rfl⟩
  · -- the structure exists
    have hown := hinv.labelling.edge g l index _ hg hl hnext
    obtain ⟨hinv', hkeep', ht', hshow⟩ :=
      hinv.showFrame ht₁ hacq.shown hslot (hinv.owned _ _ hown).2
    exact ⟨owner, _, hinv', hacq.keeps.trans hkeep', ht', hshow,
      hkeep'.link g l index _ hg hl hnext, hown⟩
  · -- it is created
    obtain ⟨hinv', hkeep'⟩ := hinv.linkFresh hg hl hj hfree hf40
    have hctl : ∀ w, (s₁.linkFresh g index f).mem c w = s₁.mem c w :=
      hinv.linkFresh_control hg hl hfree
    have htL : Tidy (s₁.linkFresh g index f) c := by
      refine ⟨fun q w hw => ?_, ht₁.slots, fun i hi hpres => ht₁.held i hi ?_⟩
      · rw [hctl]; exact ht₁.roots q w hw
      · rw [hctl] at hpres; exact hpres
    obtain ⟨hinv'', hkeep'', ht'', hshow⟩ := hinv'.showFrame htL hacq.shown hslot hf40
    have hown : placeFresh owner l index f f = some (child l index) := if_pos rfl
    have hgp := hkeep'.places g l hg
    have hnext := hkeep''.link g l index f hgp hl (hinv.linked hg hj hfree hf40).slotFull
    exact ⟨_, f, hinv'', (hacq.keeps.trans hkeep').trans hkeep'', ht'', hshow, hnext, hown⟩

theorem mapPml4_spec (h : Inv s owner c) (ht : Tidy s c) {p w : Nat}
    (hp : p < s.pagerCount) (hlock : 0 < (s.pagers p).lockDepth) (hs : s.mapPml4 p = some (w, s')) :
    Inv s' owner c ∧ Keeps s s' owner owner ∧ Tidy s' c
      ∧ Shows s' c p 0 w (s.pagers p).pml4 := by
  unfold mapPml4 at hs
  split at hs
  · rename_i w' hw
    simp only [Option.some.injEq, Prod.mk.injEq] at hs
    obtain ⟨rfl, rfl⟩ := hs
    exact ⟨h, Keeps.refl _ _, ht, hw, ht.roots p w' hw⟩
  · rw [Option.map_eq_some_iff] at hs
    obtain ⟨⟨w', s₁⟩, hget, hs⟩ := hs
    simp only [Prod.mk.injEq] at hs
    obtain ⟨rfl, rfl⟩ := hs
    have hacq := getWorkpage_spec h hget
    have hpml4 := hacq.keeps.pml4 p
    obtain ⟨hinv, hkeep⟩ := hacq.inv.setControl (hacq.inv.work p 0 w' hacq.shown).1
      (Or.inl (controlEntry_present (s₁.pagers p).pml4))
    have hshow := shows_setControl hacq.inv (e := controlEntry (s₁.pagers p).pml4) hacq.shown
    rw [hpml4, controlEntry_address (h.owned _ _ (h.root p hp)).2, ← hpml4] at hshow
    have hslots := hacq.slots ht hp (by decide) hlock
    refine ⟨hinv, hacq.keeps.trans hkeep, ⟨?_, hslots, ?_⟩, by rw [← hpml4]; exact hshow⟩
    case refine_2 =>
      intro i hi hpres
      by_cases hiw : i = w'
      · exact ⟨p, 0, hiw ▸ hacq.shown⟩
      · unfold Paging.setControl at hpres
        rw [setEntry_mem, if_neg (fun h => hiw h.2)] at hpres
        exact hacq.held ht i hi hpres
    intro q x hx
    by_cases hxw : x = w'
    · obtain ⟨rfl, _⟩ := hacq.inv.workInj q 0 p 0 w' (hxw ▸ hx) hacq.shown
      subst hxw
      exact hshow.2
    · have hq : q ≠ p := by
        rintro rfl
        have hsame : some x = some w' := hx.symm.trans hacq.shown
        injection hsame with hsame
        exact hxw hsame
      have hx' := (hacq.others q 0 (fun hqp => hq hqp.1)).symm.trans hx
      have hold : Shows s₁ c q 0 x (s.pagers q).pml4 :=
        hacq.shows ⟨hx', ht.roots q x hx'⟩
      have := (hold.setControl (e := controlEntry (s₁.pagers p).pml4) hxw).2
      rw [this]
      exact (hacq.keeps.pml4 q).symm

/-- With `lock`'s reset of the current entries every level is remapped. -/
theorem mapStructures_cases {p a b d : Nat} (hcur : (s.pagers p).currentPml4e = -1)
    (hs : s.mapStructures p a b d = some s') :
    ∃ w₀ s₀ w₁ s₁ w₂ s₂ w₃, s.mapPml4 p = some (w₀, s₀) ∧ s₀.mapLevel p 1 w₀ a = some (w₁, s₁)
      ∧ s₁.mapLevel p 2 w₁ b = some (w₂, s₂) ∧ s₂.mapLevel p 3 w₂ d = some (w₃, s') := by
  have hremap : (s.pagers p).currentPml4e ≠ (a : Int) := by rw [hcur]; omega
  unfold mapStructures at hs
  simp only [hremap, ne_eq, not_false_eq_true, if_true, or_true, Option.bind_eq_bind,
    Option.bind_eq_some_iff, Option.map_eq_some_iff, Prod.exists, Prod.map_apply, id_eq,
    Prod.mk.injEq] at hs
  obtain ⟨w₀, s₀, h₀, o₁, _, ⟨w₁, s₁, h₁, rfl, rfl⟩, o₂, _, ⟨w, hw, w₂, s₂, h₂, rfl, rfl⟩,
    w', hw', w₃, s₃, h₃, rfl⟩ := hs
  injection hw with hw
  injection hw' with hw'
  subst hw hw'
  exact ⟨w₀, s₀, w₁, s₁, w₂, s₂, w₃, h₀, h₁, h₂, h₃⟩

/-- **`mapStructures` changes no translation** and shows the page table. -/
theorem mapStructures_spec (h : Inv s owner c) (ht : Tidy s c) {p a b d : Nat}
    (hp : p < s.pagerCount) (hlock : 0 < (s.pagers p).lockDepth) (hcur : (s.pagers p).currentPml4e = -1)
    (hs : s.mapStructures p a b d = some s') :
    ∃ owner' w pt, Inv s' owner' c ∧ Keeps s s' owner owner' ∧ Tidy s' c
      ∧ Shows s' c p 3 w pt
      ∧ descend next s'.mem (s'.pagers p).pml4 [a, b, d] = some pt := by
  obtain ⟨w₀, s₀, w₁, s₁, w₂, s₂, w₃, h₀, h₁, h₂, h₃⟩ := mapStructures_cases hcur hs
  obtain ⟨hinv₀, hk₀, ht₀, hshow₀⟩ := mapPml4_spec h ht hp hlock h₀
  have hroot := h.root p hp
  obtain ⟨o₁, f₁, hinv₁, hk₁, ht₁, hshow₁, hn₁, hown₁⟩ :=
    mapLevel_spec hinv₀ ht₀ hshow₀ hroot (show 0 < 3 by decide) (by rw [hk₀.count]; exact hp)
      (by decide) (by decide) (by rw [hk₀.lockDepth]; exact hlock) h₁
  have hk₀₁ := hk₀.trans hk₁
  obtain ⟨o₂, f₂, hinv₂, hk₂, ht₂, hshow₂, hn₂, hown₂⟩ :=
    mapLevel_spec hinv₁ ht₁ hshow₁ hown₁ (show 1 < 3 by decide) (by rw [hk₀₁.count]; exact hp)
      (by decide) (by decide) (by rw [hk₀₁.lockDepth]; exact hlock) h₂
  have hk₀₂ := hk₀₁.trans hk₂
  obtain ⟨o₃, f₃, hinv₃, hk₃, ht₃, hshow₃, hn₃, hown₃⟩ :=
    mapLevel_spec hinv₂ ht₂ hshow₂ hown₂ (show 2 < 3 by decide) (by rw [hk₀₂.count]; exact hp)
      (by decide) (by decide) (by rw [hk₀₂.lockDepth]; exact hlock) h₃
  have hkeep := hk₀₂.trans hk₃
  refine ⟨o₃, w₃, f₃, hinv₃, hkeep, ht₃, hshow₃, ?_⟩
  -- the links of the upper levels are kept while the lower ones are made
  have hl₁ := (hk₂.trans hk₃).link _ _ a f₁ (hk₁.places _ _ hroot) (show 0 < 3 by decide) hn₁
  have hl₂ := hk₃.link _ _ b f₂ (hk₂.places _ _ hown₁) (show 1 < 3 by decide) hn₂
  rw [hkeep.pml4]
  simp only [descend, hl₁, hl₂, hn₃, Option.bind_some]

end Structures

end Paging

end MierOS.Memory.Virtual
