/-
  MierOS.Memory.PagerFrame
  **WHAT THE INNER CALLS OF THE PAGER LEAVE ALONE.**

  Between a call on a pager and the memory lie the same few writes: a frame is
  taken, an entry is written, a frame is cleared, a work page is noted.  A
  relation between states that these four keep (`Carried`) is kept by every
  call made of them, so "nothing happens to ..." is proved once, for the writes.

  What depends on where the writes go follows the walk of `mapStructures` down
  the levels (`Reached`):

  Main results: `hint_carried`, `used_carried`, `mapStructuresAt_control`.
-/
import MierOS.Memory.FlatMap

namespace MierOS.Memory.Virtual

open Lib Lib.TableTree

namespace Paging

/-! ## §1. Relations every write keeps. -/

/-- **`R` is carried through** whatever the calls on pager `p` write. -/
structure Carried (p : Nat) (R : Paging → Paging → Prop) : Prop where
  refl : ∀ s, R s s
  trans : ∀ {s t u}, R s t → R t u → R s u
  palloc : ∀ {s s' f}, s.palloc = some (f, s') → R s s'
  setEntry : ∀ s frame i e, R s (s.setEntry frame i e)
  zeroFrame : ∀ s frame, R s (s.zeroFrame frame)
  holdWork : ∀ s slot w, R s (s.holdWork p slot w)

section Carried

variable {p : Nat} {R : Paging → Paging → Prop} {s s' : Paging}

namespace Carried

theorem aquireWorkpageIndex (h : Carried p R) {w : Nat}
    (hs : s.aquireWorkpageIndex = some (w, s')) : R s s' := by
  unfold Paging.aquireWorkpageIndex at hs
  split at hs
  · exact absurd hs (by simp)
  · rw [Option.some.injEq, Prod.mk.injEq] at hs
    rw [← hs.2]
    exact h.setEntry s _ _ _

theorem getWorkpage (h : Carried p R) {slot w : Nat}
    (hs : s.getWorkpage p slot = some (w, s')) : R s s' := by
  unfold Paging.getWorkpage at hs
  split at hs
  · rw [Option.some.injEq, Prod.mk.injEq] at hs
    rw [← hs.2]
    exact h.refl s
  · obtain ⟨⟨w', s₁⟩, hget, hs⟩ := Option.map_eq_some_iff.mp hs
    rw [← (Prod.mk.inj hs).2]
    exact h.trans (h.aquireWorkpageIndex hget) (h.holdWork s₁ slot w')

theorem mapLevel (h : Carried p R) {slot parent index w : Nat}
    (hs : s.mapLevel p slot parent index = some (w, s')) : R s s' := by
  obtain ⟨s₁, hget, hs⟩ := mapLevel_cases hs
  refine h.trans (h.getWorkpage hget) ?_
  rcases hs with ⟨-, rfl⟩ | ⟨-, f, s₂, s₃, hpal, rfl, rfl⟩
  · exact h.setEntry s₁ _ _ _
  · have hlink := h.trans (h.palloc hpal)
      (h.setEntry s₂ (s₂.workFrame parent) index (linkEntry f))
    exact h.trans (h.trans hlink (h.setEntry _ _ _ _)) (h.zeroFrame _ _)

theorem mapPml4 (h : Carried p R) {w : Nat} (hs : s.mapPml4 p = some (w, s')) : R s s' := by
  unfold Paging.mapPml4 at hs
  split at hs
  · injection hs with hs
    rw [← (Prod.mk.inj hs).2]
    exact h.refl s
  · obtain ⟨⟨w', s₁⟩, hget, hs⟩ := Option.map_eq_some_iff.mp hs
    rw [← (Prod.mk.inj hs).2]
    exact h.trans (h.getWorkpage hget) (h.setEntry s₁ _ _ _)

/-- One optional level of `mapStructures`, and what is done behind it. -/
theorem remap (h : Carried p R) {slot index : Nat} {remap : Prop} [Decidable remap]
    (parent : Option Nat) {rest : Option Nat × Paging → Option Paging}
    (hrest : ∀ x s', rest x = some s' → R x.2 s')
    (hs : (if remap then (parent.bind fun w =>
        (s.mapLevel p slot w index).map (Prod.map some id)).bind rest
      else rest (none, s)) = some s') : R s s' := by
  split at hs
  · obtain ⟨⟨work, s₁⟩, hs₁, hs⟩ := Option.bind_eq_some_iff.mp hs
    obtain ⟨w, -, hs₁⟩ := Option.bind_eq_some_iff.mp hs₁
    obtain ⟨⟨w', s₂⟩, hlevel, hs₁⟩ := Option.map_eq_some_iff.mp hs₁
    obtain ⟨-, rfl⟩ := Prod.mk.inj hs₁
    exact h.trans (h.mapLevel hlevel) (hrest _ _ hs)
  · exact hrest _ _ hs

theorem mapStructuresAt (h : Carried p R) {v : Nat} (hs : s.mapStructuresAt p v = some s') :
    R s s' := by
  unfold Paging.mapStructuresAt mapStructures at hs
  simp only [Option.bind_eq_bind] at hs
  obtain ⟨⟨pml4Work, s₁⟩, h₁, hs⟩ := Option.bind_eq_some_iff.mp hs
  refine h.trans (h.mapPml4 h₁) ?_
  -- the PDPT, the PD and the PT, one behind the other
  refine h.remap (some pml4Work) ?_ hs
  intro ⟨pdptWork, s₂⟩ s' hs
  refine h.remap pdptWork ?_ hs
  intro ⟨pdWork, s₃⟩ s' hs
  dsimp only at hs
  split at hs
  · obtain ⟨w, -, hs⟩ := Option.bind_eq_some_iff.mp hs
    obtain ⟨⟨w', s₄⟩, hlevel, rfl⟩ := Option.map_eq_some_iff.mp hs
    exact h.mapLevel hlevel
  · injection hs with hs
    rw [← hs]
    exact h.refl s₃

/-- A loop whose rounds are carried. -/
theorem foldlM (h : Carried p R) {σ α : Type} (g : σ → Paging) {f : σ → α → Option σ}
    (hf : ∀ x a x', f x a = some x' → R (g x) (g x')) (l : List α) {x x' : σ}
    (hs : l.foldlM f x = some x') : R (g x) (g x') := by
  induction l generalizing x with
  | nil =>
      rw [List.foldlM_nil] at hs
      injection hs with hs
      rw [hs]
      exact h.refl _
  | cons a l ih =>
      rw [List.foldlM_cons] at hs
      obtain ⟨m, hm, hrest⟩ := Option.bind_eq_some_iff.mp hs
      exact h.trans (hf x a m hm) (ih hrest)

theorem mapRound (h : Carried p R) {ptWork v phys : Nat} {flags : PageFlags}
    (hs : s.mapRound p ptWork v phys flags = some s') : R s s' := by
  unfold Paging.mapRound at hs
  simp only [Option.bind_eq_bind, Option.bind_eq_some_iff, pure, Option.some.injEq] at hs
  obtain ⟨s₁, hs₁, rfl⟩ := hs
  exact h.trans (h.mapStructuresAt hs₁) (h.setEntry s₁ _ _ _)

theorem map (h : Carried p R) {phys virt n : Nat} {flags : PageFlags}
    (hs : s.map p phys virt n flags = some s') : R s s' := by
  unfold Paging.map at hs
  simp only [Option.bind_eq_bind, Option.bind_eq_some_iff, Prod.exists] at hs
  obtain ⟨w, s₁, hget, hs⟩ := hs
  exact h.trans (h.getWorkpage hget) (h.foldlM id (fun _ _ _ hround => h.mapRound hround) _ hs)

theorem unmapRound (h : Carried p R) {ptWork v addr addr' : Nat}
    (hs : s.unmapRound p ptWork v addr = some (addr', s')) : R s s' := by
  unfold Paging.unmapRound at hs
  simp only [Option.bind_eq_bind, Option.bind_eq_some_iff, pure, Option.some.injEq,
    Prod.mk.injEq] at hs
  obtain ⟨s₁, hs₁, -, rfl⟩ := hs
  exact h.trans (h.mapStructuresAt hs₁) (h.setEntry s₁ _ _ _)

theorem getFlags (h : Carried p R) {virt : Nat} {flags : PageFlags}
    (hs : s.getFlags p virt = some (flags, s')) : R s s' := by
  unfold Paging.getFlags entryOf at hs
  simp only [Option.map_eq_some_iff, Option.bind_eq_bind, Option.bind_eq_some_iff, Prod.exists,
    pure, Option.some.injEq, Prod.mk.injEq] at hs
  obtain ⟨e, t, ⟨s₁, hs₁, w, s₂, hget, -, rfl⟩, -, rfl⟩ := hs
  exact h.trans (h.mapStructuresAt hs₁) (h.getWorkpage hget)

theorem probeRange (h : Carried p R) {addr : Nat} {hit : Option Nat} :
    ∀ count offset s, probeRange p addr count offset s = some (hit, s') → R s s' := by
  intro count
  induction count with
  | zero =>
      intro offset s hs
      simp only [Paging.probeRange, Option.some.injEq, Prod.mk.injEq] at hs
      rw [hs.2]
      exact h.refl s'
  | succ count ih =>
      intro offset s hs
      simp only [Paging.probeRange, Option.bind_eq_bind, Option.bind_eq_some_iff,
        Prod.exists] at hs
      obtain ⟨flags, s₁, hflags, hs⟩ := hs
      split at hs
      · simp only [pure, Option.some.injEq, Prod.mk.injEq] at hs
        rw [← hs.2]
        exact h.getFlags hflags
      · exact h.trans (h.getFlags hflags) (ih _ s₁ hs)

end Carried

/-- **The calls leave the search hint alone**; only the search itself moves it. -/
theorem hint_carried (p : Nat) :
    Carried p fun s s' => s'.firstPotentialKernelPage = s.firstPotentialKernelPage where
  refl _ := rfl
  trans h h' := h'.trans h
  palloc hs := by
    obtain ⟨-, -, rfl⟩ := palloc_cases hs
    rfl
  setEntry _ _ _ _ := rfl
  zeroFrame _ _ := rfl
  holdWork _ _ _ := rfl

/-- **The calls give no frame back.** -/
theorem used_carried (p : Nat) :
    Carried p fun s s' => ∀ f, s.used f = true → s'.used f = true where
  refl _ _ hf := hf
  trans h h' f hf := h' f (h f hf)
  palloc hs f hf := by
    obtain ⟨-, -, rfl⟩ := palloc_cases hs
    show (if f = _ then true else _) = true
    rw [hf, ite_self]
  setEntry _ _ _ _ _ hf := hf
  zeroFrame _ _ _ hf := hf
  holdWork _ _ _ _ hf := hf

end Carried

/-! ## §2. Down the levels. -/

section Walk

variable {s s' t t' : Paging} {owner : Nat → Option Place} {c p : Nat}

/-- **Half way down a walk** of pager `p`: work page `w` shows the structure `g`
at the end of `l`. -/
structure Reached (t : Paging) (owner : Nat → Option Place) (c p : Nat) (l : List Nat)
    (w g : Nat) : Prop where
  inv : Inv t owner c
  tidy : Tidy t c
  locked : Locked t p
  shown : Shows t c p l.length w g
  placed : owner g = some (l.foldl child (some p, []))
  ends : descend next t.mem (t.pagers p).pml4 l = some g

theorem depth_path (p : Nat) (l : List Nat) : depth (l.foldl child (some p, [])) = l.length := by
  rw [depth_foldl depth_child]
  exact Nat.zero_add _

theorem Keeps.locked {owner' : Nat → Option Place} (h : Keeps s s' owner owner')
    (hp : Locked s p) : Locked s' p := by
  unfold Locked
  rw [h.count, h.lockDepth]
  exact hp

theorem Keeps.descend {owner' : Nat → Option Place} (hk : Keeps s s' owner owner')
    (h : Inv s owner c) {q g : Nat} {l : List Nat} (hq : q < s.pagerCount) (hl : l.length ≤ 3)
    (hd : descend next s.mem (s.pagers q).pml4 l = some g) :
    TableTree.descend next s'.mem (s'.pagers q).pml4 l = some g := by
  rw [hk.pml4]
  exact descend_mono depth_child h.labelling hk.link l _ _ g (h.root q hq)
    (show 0 + l.length ≤ 3 by omega) hd

theorem mapPml4_reached (h : Inv s owner c) (ht : Tidy s c) (hp : Locked s p) {w : Nat}
    (hs : s.mapPml4 p = some (w, s')) :
    Reached s' owner c p [] w (s.pagers p).pml4 ∧ Keeps s s' owner owner := by
  obtain ⟨hinv, hk, ht', hshow⟩ := mapPml4_spec h ht hp.1 hp.2 hs
  exact ⟨⟨hinv, ht', hk.locked hp, hshow, h.root p hp.1, by rw [hk.pml4]; rfl⟩, hk⟩

/-- **One level further down.** -/
theorem Reached.mapLevel {l : List Nat} {w w' g i : Nat} (h : Reached t owner c p l w g)
    (hl : l.length < 3) (hs : t.mapLevel p (l.length + 1) w i = some (w', t')) :
    ∃ owner' f, Reached t' owner' c p (l ++ [i]) w' f ∧ Keeps t t' owner owner' := by
  obtain ⟨owner', f, hinv, hk, ht, hshow, hnext, hown⟩ := mapLevel_spec h.inv h.tidy h.shown
    h.placed (by rw [depth_path]; exact hl) h.locked.1 (Nat.succ_pos _) (by omega) h.locked.2 hs
  refine ⟨owner', f, ⟨hinv, ht, hk.locked h.locked, ?_, ?_, ?_⟩, hk⟩
  · rw [List.length_append]
    exact hshow
  · rw [List.foldl_append]
    exact hown
  · rw [descend_concat, hk.descend h.inv h.locked.1 (Nat.le_of_lt hl) h.ends]
    exact hnext

/-! ## §3. The control slots. -/

/-- **No control slot is written** but those of the work pages `p` ends up with. -/
def Untouched (s s' : Paging) (c p : Nat) : Prop :=
  ∀ i, (∀ k, (s'.pagers p).workPages k ≠ some i) → s'.mem c i = s.mem c i

theorem Untouched.trans {owner₁ owner₂ : Nat → Option Place} (h : Untouched s t c p)
    (h' : Untouched t t' c p) (hk : Keeps t t' owner₁ owner₂) : Untouched s t' c p := by
  intro i hi
  rw [h' i hi]
  exact h i fun k hw => hi k (hk.held p k i hw)

/-- Writing the slot of a work page of `p`. -/
theorem untouched_setControl {slot w : Nat} {e : PageStructuresEntry}
    (hw : (s.pagers p).workPages slot = some w) : Untouched s (s.setControl w e) c p := by
  intro i hi
  unfold Paging.setControl
  rw [setEntry_mem, if_neg]
  rintro ⟨-, rfl⟩
  exact hi slot hw

theorem getWorkpage_untouched (h : Inv s owner c) {slot w : Nat}
    (hs : s.getWorkpage p slot = some (w, s')) : Untouched s s' c p := by
  have hshown := (getWorkpage_spec h hs).shown
  unfold getWorkpage at hs
  split at hs
  · rw [Option.some.injEq, Prod.mk.injEq] at hs
    rw [← hs.2]
    exact fun _ _ => rfl
  · obtain ⟨⟨w', s₁⟩, hget, hs⟩ := Option.map_eq_some_iff.mp hs
    obtain ⟨-, -, rfl⟩ := aquireWorkpageIndex_spec h hget
    obtain ⟨rfl, rfl⟩ := Prod.mk.inj hs
    intro i hi
    show (s.setControl w' _).mem c i = s.mem c i
    unfold Paging.setControl
    rw [setEntry_mem, if_neg]
    rintro ⟨-, rfl⟩
    exact hi slot hshown

theorem mapPml4_untouched (h : Inv s owner c) {w : Nat} (hs : s.mapPml4 p = some (w, s')) :
    Untouched s s' c p := by
  unfold mapPml4 at hs
  split at hs
  · rw [Option.some.injEq, Prod.mk.injEq] at hs
    rw [← hs.2]
    exact fun _ _ => rfl
  · obtain ⟨⟨w', s₁⟩, hget, hs⟩ := Option.map_eq_some_iff.mp hs
    obtain ⟨rfl, rfl⟩ := Prod.mk.inj hs
    have hacq := getWorkpage_spec h hget
    have hlt := (hacq.inv.work p 0 w' hacq.shown).1
    exact (getWorkpage_untouched h hget).trans (untouched_setControl hacq.shown)
      (hacq.inv.setControl hlt (Or.inl (controlEntry_present _))).2

theorem Reached.untouched {l : List Nat} {w w' g i : Nat} (h : Reached t owner c p l w g)
    (hl : l.length < 3) (hs : t.mapLevel p (l.length + 1) w i = some (w', t')) :
    Untouched t t' c p := by
  have hdepth : depth (l.foldl child (some p, [])) < 3 := by rw [depth_path]; exact hl
  obtain ⟨s₁, hget, hcases⟩ := mapLevel_on h.inv h.shown h.placed hdepth hs
  have hacq := getWorkpage_spec h.inv hget
  have hold := getWorkpage_untouched h.inv hget
  rcases hcases with ⟨f, -, rfl⟩ | ⟨-, f, hfree, -, rfl⟩
  · intro j hj
    rw [untouched_setControl hacq.shown j hj]
    exact hold j hj
  · -- the frame that is linked and the one it is linked in are not the control page
    have hshown : ((s₁.linkFresh g i f).pagers p).workPages (l.length + 1) = some w' := hacq.shown
    intro j hj
    rw [untouched_setControl hshown j hj, hacq.inv.linkFresh_control h.placed hdepth hfree]
    exact hold j hj

/-- Pager `p` has all four work pages. -/
def HoldsAll (s : Paging) (p : Nat) : Prop := ∀ k, k < 4 → ∃ w, (s.pagers p).workPages k = some w

/-- **A walk writes its own control slots**, and takes all four of them. -/
theorem mapStructuresAt_control (h : Inv s owner c) (ht : Tidy s c) (hp : Locked s p)
    (hcur : (s.pagers p).currentPml4e = -1) {v : Nat} (hs : s.mapStructuresAt p v = some s') :
    (∃ owner', Inv s' owner' c) ∧ Untouched s s' c p ∧ HoldsAll s' p := by
  obtain ⟨w₀, s₀, w₁, s₁, w₂, s₂, w₃, h₀, h₁, h₂, h₃⟩ := mapStructures_cases hcur hs
  obtain ⟨hr₀, -⟩ := mapPml4_reached h ht hp h₀
  obtain ⟨o₁, f₁, hr₁, hk₁⟩ := hr₀.mapLevel (show 0 < 3 by decide) h₁
  obtain ⟨o₂, f₂, hr₂, hk₂⟩ := hr₁.mapLevel (show 1 < 3 by decide) h₂
  obtain ⟨o₃, f₃, hr₃, hk₃⟩ := hr₂.mapLevel (show 2 < 3 by decide) h₃
  have hu₁ := (mapPml4_untouched h h₀).trans (hr₀.untouched (show 0 < 3 by decide) h₁) hk₁
  have hu₂ := hu₁.trans (hr₁.untouched (show 1 < 3 by decide) h₂) hk₂
  refine ⟨⟨o₃, hr₃.inv⟩, hu₂.trans (hr₂.untouched (show 2 < 3 by decide) h₃) hk₃, ?_⟩
  intro k hk
  obtain rfl | rfl | rfl | rfl : k = 0 ∨ k = 1 ∨ k = 2 ∨ k = 3 := by omega
  · exact ⟨w₀, (hk₁.trans (hk₂.trans hk₃)).held p 0 w₀ hr₀.shown.1⟩
  · exact ⟨w₁, (hk₂.trans hk₃).held p 1 w₁ hr₁.shown.1⟩
  · exact ⟨w₂, hk₃.held p 2 w₂ hr₂.shown.1⟩
  · exact ⟨w₃, hr₃.shown.1⟩

end Walk

end Paging

end MierOS.Memory.Virtual
