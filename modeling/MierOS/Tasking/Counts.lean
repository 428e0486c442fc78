/-
  MierOS.Tasking.Counts
  **THE COUNTS OF PAGE OBJECTS.**

  A `PhysicalPage::Data` has two counts: `f_obj_ref_count`, the `PhysicalPage`
  objects that point to it, and `f_ref_count`, the mappings of the page.  The
  objects live in four places (`Holder`): an entry of a memory map, a shared
  anonymous page, the shared pages of a vnode, and a handler that never
  returned.

  In the middle of an operation the counts are off: a local object is counted
  and held nowhere, an entry still points to a page that has been given up.
  `Accounted s T R A` says that the object counts are off by exactly `T`, the
  mapping counts by exactly `R` and the counts of the shared anonymous entries
  by exactly `A`; every primitive moves these three, and between operations
  all are 0.
-/
import MierOS.Lib.Refs
import MierOS.Tasking.ProcessMemory

namespace MierOS.Tasking

open Memory.Virtual
open Lib.Refs
open Function (update update_eq_self update_of_ne update_self)

/-! ## §1. Who holds a page. -/

/-- The page an entry holds and maps. -/
def MemoryEntry.held : MemoryEntry → Option PagePtr
  | .memory d _ => some d
  | .fileMemory m _ => some m.page
  | _ => none

/-- The shared anonymous page an entry points to. -/
def MemoryEntry.sharedPtr : MemoryEntry → Option AnonPtr
  | .sharedAnonymous o => some o
  | _ => none

/-- The memory maps of all processes. -/
abbrev Maps := Nat → Nat → Option MemoryEntry

def Maps.set (M : Maps) (p a : Nat) (e : Option MemoryEntry) : Maps :=
  update M p (update (M p) a e)

/-- The page mapped at address `i.2` of process `i.1`. -/
def mapped (M : Maps) (i : Nat × Nat) : Option PagePtr := (M i.1 i.2).bind MemoryEntry.held

def sharers (M : Maps) (i : Nat × Nat) : Option AnonPtr := (M i.1 i.2).bind MemoryEntry.sharedPtr

def Kernel.maps (s : Kernel) : Maps := fun p a => (s.procs p).memorymap a

def Kernel.status (s : Kernel) (p : Nat) : Status := (s.procs p).status

/-- The page a stopped process still holds. -/
def Status.held : Status → Option PagePtr
  | .stuck held => held
  | _ => none

/-- The places that hold a `PhysicalPage`. -/
inductive Holder
  | slot (p a : Nat)
  | anon (o : AnonPtr)
  | cache (file offset : Nat)
  | handler (p : Nat)
  deriving DecidableEq

def Kernel.holder (s : Kernel) : Holder → Option PagePtr
  | .slot p a => mapped s.maps (p, a)
  | .anon o => (s.anons o).bind SharedAnonymousPage.page
  | .cache file offset => s.sharedPages file offset
  | .handler p => (s.status p).held

/-- **The counts are right**, up to `T`, `R` and `A`; the frames of living
pages are in use and distinct. -/
structure Accounted (s : Kernel) (T R : PagePtr → Int) (A : AnonPtr → Int) : Prop where
  holderFinite : Finite s.holder
  sharersFinite : Finite (sharers s.maps)
  objects : ∀ d D, s.pages d = some D → (D.objRefCount : Int) = refs s.holder d + T d
  mappings : ∀ d D, s.pages d = some D → (D.refCount : Int) = refs (mapped s.maps) d + R d
  dead : ∀ d, s.pages d = none → (refs s.holder d : Int) + T d = 0
  anons : ∀ o O, s.anons o = some O → (O.refCount : Int) = refs (sharers s.maps) o + A o
  deadAnons : ∀ o, s.anons o = none → (refs (sharers s.maps) o : Int) + A o = 0
  fresh : ∀ d, s.next ≤ d → s.pages d = none ∧ s.anons d = none
    ∧ (refs (mapped s.maps) d : Int) + R d = 0
  used : ∀ d D, s.pages d = some D → D.addr ≠ 0 → s.used D.addr = true
  frames : ∀ d e D E, s.pages d = some D → s.pages e = some E → D.addr = E.addr → D.addr ≠ 0 → d = e

/-! ## §2. Changing one entry of the maps. -/

variable {s s' : Kernel} {T T' R R' : PagePtr → Int} {A A' : AnonPtr → Int}

theorem Maps.set_apply (M : Maps) (p a : Nat) (e : Option MemoryEntry) (q b : Nat) :
    M.set p a e q b = if q = p ∧ b = a then e else M q b := by
  unfold Maps.set
  by_cases hq : q = p
  · subst hq
    by_cases hb : b = a
    · subst hb
      simp
    · simp [hb]
  · simp [hq]

@[simp] theorem Maps.set_self (M : Maps) (p a : Nat) (e : Option MemoryEntry) :
    M.set p a e p a = e := by
  rw [Maps.set_apply, if_pos ⟨rfl, rfl⟩]

theorem Maps.set_of_ne (M : Maps) {p a q b : Nat} (e : Option MemoryEntry)
    (h : (q, b) ≠ (p, a)) : M.set p a e q b = M q b := by
  rw [Maps.set_apply, if_neg]
  intro hqb
  apply h
  rw [hqb.1, hqb.2]

theorem bind_set {β : Type} (k : MemoryEntry → Option β) (M : Maps) (p a : Nat)
    (e : Option MemoryEntry) :
    (fun i : Nat × Nat => (M.set p a e i.1 i.2).bind k)
      = update (fun i : Nat × Nat => (M i.1 i.2).bind k) (p, a) (e.bind k) := by
  funext i
  by_cases hi : i = (p, a)
  · subst hi
    simp
  · rw [update_of_ne hi, Maps.set_of_ne M e hi]

theorem mapped_set (M : Maps) (p a : Nat) (e : Option MemoryEntry) :
    mapped (M.set p a e) = update (mapped M) (p, a) (e.bind MemoryEntry.held) :=
  bind_set MemoryEntry.held M p a e

theorem sharers_set (M : Maps) (p a : Nat) (e : Option MemoryEntry) :
    sharers (M.set p a e) = update (sharers M) (p, a) (e.bind MemoryEntry.sharedPtr) :=
  bind_set MemoryEntry.sharedPtr M p a e

theorem maps_setEntry (s : Kernel) (p a : Nat) (e : Option MemoryEntry) :
    (s.setEntry p a e).maps = s.maps.set p a e := by
  funext q b
  rw [Maps.set_apply]
  unfold Kernel.setEntry Kernel.setProc Kernel.maps
  by_cases hq : q = p
  · subst hq
    by_cases hb : b = a
    · subst hb
      simp
    · simp [hb]
  · simp [hq]

theorem status_setEntry (s : Kernel) (p a : Nat) (e : Option MemoryEntry) :
    (s.setEntry p a e).status = s.status := by
  funext q
  unfold Kernel.setEntry Kernel.setProc Kernel.status
  by_cases hq : q = p
  · subst hq
    simp
  · simp [hq]

theorem holder_setEntry (s : Kernel) (p a : Nat) (e : Option MemoryEntry) :
    (s.setEntry p a e).holder
      = update s.holder (.slot p a) (e.bind MemoryEntry.held) := by
  rw [Function.eq_update_iff]
  constructor
  · show mapped (s.setEntry p a e).maps (p, a) = _
    rw [maps_setEntry, mapped_set, update_self]
  · intro i hi
    cases i with
    | slot q b =>
        have hqb : (q, b) ≠ (p, a) := by
          intro h
          exact hi (by rw [(Prod.mk.inj h).1, (Prod.mk.inj h).2])
        show mapped (s.setEntry p a e).maps (q, b) = mapped s.maps (q, b)
        rw [maps_setEntry, mapped_set, update_of_ne hqb]
    | anon o => rfl
    | cache file offset => rfl
    | handler q =>
        show ((s.setEntry p a e).status q).held = (s.status q).held
        rw [status_setEntry]

/-- The maps change only where a page table, a status or nothing is set. -/
theorem holder_congr (hmaps : s'.maps = s.maps) (hstatus : s'.status = s.status)
    (hanons : s'.anons = s.anons) (hcache : s'.sharedPages = s.sharedPages) :
    s'.holder = s.holder := by
  funext i
  cases i with
  | slot q b => show mapped s'.maps (q, b) = mapped s.maps (q, b); rw [hmaps]
  | anon o => show (s'.anons o).bind _ = (s.anons o).bind _; rw [hanons]
  | cache file offset => show s'.sharedPages file offset = s.sharedPages file offset; rw [hcache]
  | handler q => show (s'.status q).held = (s.status q).held; rw [hstatus]

/-! ## §3. Ownership moves. -/

/-- **Nothing is created or destroyed**: only who holds what changes, and the
differences with it. -/
theorem Accounted.move (h : Accounted s T R A) (hpages : s'.pages = s.pages)
    (hused : s'.used = s.used) (hnext : s'.next = s.next)
    (hanons : ∀ o, (s'.anons o).map SharedAnonymousPage.refCount
      = (s.anons o).map SharedAnonymousPage.refCount)
    (hfin : Finite s'.holder) (hafin : Finite (sharers s'.maps))
    (hT : ∀ d, (refs s'.holder d : Int) + T' d = refs s.holder d + T d)
    (hR : ∀ d, (refs (mapped s'.maps) d : Int) + R' d = refs (mapped s.maps) d + R d)
    (hA : ∀ o, (refs (sharers s'.maps) o : Int) + A' o = refs (sharers s.maps) o + A o) :
    Accounted s' T' R' A' where
  holderFinite := hfin
  sharersFinite := hafin
  objects d D hd := by rw [hT, h.objects d D (hpages ▸ hd)]
  mappings d D hd := by rw [hR, h.mappings d D (hpages ▸ hd)]
  dead d hd := by rw [hT, h.dead d (hpages ▸ hd)]
  anons o O ho := by
    have hcount := hanons o
    rw [ho] at hcount
    cases hO : s.anons o with
    | none => rw [hO] at hcount; cases hcount
    | some O' =>
        rw [hO] at hcount
        rw [hA, ← h.anons o O' hO, Option.some.inj hcount]
  deadAnons o ho := by
    have hcount := hanons o
    rw [ho] at hcount
    cases hO : s.anons o with
    | none => rw [hA, h.deadAnons o hO]
    | some O' => rw [hO] at hcount; cases hcount
  fresh d hd := by
    have hfresh := h.fresh d (hnext ▸ hd)
    refine ⟨hpages ▸ hfresh.1, ?_, by rw [hR, hfresh.2.2]⟩
    have hcount := hanons d
    rw [hfresh.2.1] at hcount
    cases hO : s'.anons d with
    | none => rfl
    | some O' => rw [hO] at hcount; cases hcount
  used d D hd := by rw [hused]; exact h.used d D (hpages ▸ hd)
  frames d e D E hd he := h.frames d e D E (hpages ▸ hd) (hpages ▸ he)

/-- Nothing the counts depend on changes. -/
theorem Accounted.congr (h : Accounted s T R A) (hpages : s'.pages = s.pages)
    (hused : s'.used = s.used) (hnext : s'.next = s.next) (hanons : s'.anons = s.anons)
    (hmaps : s'.maps = s.maps) (hstatus : s'.status = s.status)
    (hcache : s'.sharedPages = s.sharedPages) : Accounted s' T R A := by
  have hholder := holder_congr hmaps hstatus hanons hcache
  apply h.move hpages hused hnext (fun o => by rw [hanons])
  · rw [hholder]
    exact h.holderFinite
  · rw [hmaps]
    exact h.sharersFinite
  · intro d
    rw [hholder]
  · intro d
    rw [hmaps]
  · intro o
    rw [hmaps]

/-- The differences may be written in any way. -/
theorem Accounted.of_eq (h : Accounted s T R A) (hT : T = T') (hR : R = R') (hA : A = A') :
    Accounted s T' R' A' := hT ▸ hR ▸ hA ▸ h

theorem Accounted.mappedFinite (h : Accounted s T R A) : Finite (mapped s.maps) := by
  -- a mapped page is held by its slot
  have himage : {i | mapped s.maps i ≠ none}
      = Set.preimage (fun i : Nat × Nat => Holder.slot i.1 i.2) {j | s.holder j ≠ none} := rfl
  show {i | mapped s.maps i ≠ none}.Finite
  rw [himage]
  apply Set.Finite.preimage _ h.holderFinite
  intro i _ j _ hij
  exact Prod.ext (Holder.slot.inj hij).1 (Holder.slot.inj hij).2

/-- **An entry is written**: its old page is no longer held there, its new page
is. -/
theorem Accounted.setEntry (h : Accounted s T R A) (p a : Nat) (e : Option MemoryEntry) :
    Accounted (s.setEntry p a e)
      (T + tally (mapped s.maps (p, a)) - tally (e.bind MemoryEntry.held))
      (R + tally (mapped s.maps (p, a)) - tally (e.bind MemoryEntry.held))
      (A + tally (sharers s.maps (p, a)) - tally (e.bind MemoryEntry.sharedPtr)) := by
  refine h.move rfl rfl rfl (fun o => rfl) ?_ ?_ ?_ ?_ ?_
  · rw [holder_setEntry]
    exact h.holderFinite.update _ _
  · rw [maps_setEntry, sharers_set]
    exact h.sharersFinite.update _ _
  · intro d
    rw [holder_setEntry, refs_update h.holderFinite]
    show (refs s.holder d - tally (mapped s.maps (p, a)) d + _ + (T d + _ - _) : Int) = _
    omega
  · intro d
    rw [maps_setEntry, mapped_set, refs_update h.mappedFinite]
    show (refs (mapped s.maps) d - _ + _ + (R d + _ - _) : Int) = _
    omega
  · intro o
    rw [maps_setEntry, sharers_set, refs_update h.sharersFinite]
    show (refs (sharers s.maps) o - _ + _ + (A o + _ - _) : Int) = _
    omega

/-! ## §4. Page objects. -/

/-- A page that somebody holds is alive. -/
theorem Accounted.live (h : Accounted s T R A) {d : PagePtr}
    (hd : 0 < (refs s.holder d : Int) + T d) : ∃ D, s.pages d = some D := by
  cases hpage : s.pages d with
  | none =>
      have hdead := h.dead d hpage
      omega
  | some D => exact ⟨D, rfl⟩

theorem Accounted.lt_next (h : Accounted s T R A) {d : PagePtr} {D : PageData}
    (hd : s.pages d = some D) : d < s.next := by
  by_contra hlt
  have hfresh := h.fresh d (Nat.not_lt.mp hlt)
  rw [hfresh.1] at hd
  cases hd

/-- The objects a page counts; a dead page counts none. -/
def objectsOf (v : Option PageData) : Int := (v.map fun D => (D.objRefCount : Int)).getD 0

/-- **One page object is written**: created, changed in place, or erased. -/
theorem Accounted.writePage (h : Accounted s T R A) {d : PagePtr} (v : Option PageData)
    (hpages : s'.pages = update s.pages d v) (hholder : s'.holder = s.holder)
    (hmaps : s'.maps = s.maps) (hanons : s'.anons = s.anons)
    (hnext : s.next ≤ s'.next) (hlt : d < s'.next)
    (hT : objectsOf v = refs s.holder d + T' d) (hTo : ∀ x, x ≠ d → T' x = T x)
    (hR : ∀ D, v = some D → (D.refCount : Int) = refs (mapped s.maps) d + R' d)
    (hRo : ∀ x, x ≠ d → R' x = R x)
    (hused : ∀ D, v = some D → D.addr ≠ 0 → s'.used D.addr = true)
    -- the other living pages keep their frames, none of which is the one of `d`
    (hothers : ∀ x X, x ≠ d → s.pages x = some X → X.addr ≠ 0 →
      s'.used X.addr = true ∧ ∀ D, v = some D → X.addr ≠ D.addr) : Accounted s' T' R' A := by
  have hself : s'.pages d = v := by rw [hpages, update_self]
  have hother : ∀ x, x ≠ d → s'.pages x = s.pages x := fun x hx => by
    rw [hpages, update_of_ne hx]
  constructor
  case holderFinite => rw [hholder]; exact h.holderFinite
  case sharersFinite => rw [hmaps]; exact h.sharersFinite
  case objects =>
    intro x X hx
    rw [hholder]
    by_cases hxd : x = d
    · subst hxd
      rw [← hT, ← hself, hx]
      rfl
    · rw [hother x hxd] at hx
      rw [hTo x hxd]
      exact h.objects x X hx
  case mappings =>
    intro x X hx
    rw [hmaps]
    by_cases hxd : x = d
    · subst hxd
      exact hR X (hself.symm.trans hx)
    · rw [hother x hxd] at hx
      rw [hRo x hxd]
      exact h.mappings x X hx
  case dead =>
    intro x hx
    rw [hholder]
    by_cases hxd : x = d
    · subst hxd
      rw [← hT, ← hself, hx]
      rfl
    · rw [hother x hxd] at hx
      rw [hTo x hxd]
      exact h.dead x hx
  case anons => rw [hanons, hmaps]; exact h.anons
  case deadAnons => rw [hanons, hmaps]; exact h.deadAnons
  case fresh =>
    intro x hx
    have hxd : x ≠ d := Nat.ne_of_gt (Nat.lt_of_lt_of_le hlt hx)
    rw [hother x hxd, hanons, hmaps, hRo x hxd]
    exact h.fresh x (Nat.le_trans hnext hx)
  case used =>
    intro x X hx hne
    by_cases hxd : x = d
    · subst hxd
      exact hused X (hself.symm.trans hx) hne
    · rw [hother x hxd] at hx
      exact (hothers x X hxd hx hne).1
  case frames =>
    intro x y X Y hx hy hXY hne
    by_cases hxd : x = d
    · by_cases hyd : y = d
      · rw [hxd, hyd]
      · rw [hxd, hself] at hx
        rw [hother y hyd] at hy
        exact absurd hXY.symm ((hothers y Y hyd hy (hXY ▸ hne)).2 X hx)
    · rw [hother x hxd] at hx
      by_cases hyd : y = d
      · rw [hyd, hself] at hy
        exact absurd hXY ((hothers x X hxd hx hne).2 Y hy)
      · rw [hother y hyd] at hy
        exact h.frames x y X Y hx hy hXY hne

/-- A living page other than `d` has another frame. -/
theorem Accounted.frame_ne (h : Accounted s T R A) {d x : PagePtr} {D X : PageData}
    (hd : s.pages d = some D) (hx : s.pages x = some X) (hxd : x ≠ d) (hne : X.addr ≠ 0) :
    X.addr ≠ D.addr :=
  fun heq => hxd (h.frames x d X D hx hd heq hne)

/-- **A page object changes in place**, counts included. -/
theorem Accounted.modifyPage (h : Accounted s T R A) {d : PagePtr} {D : PageData}
    (hd : s.pages d = some D) (f : PageData → PageData) (haddr : (f D).addr = D.addr)
    (hT : ((f D).objRefCount : Int) + T d = D.objRefCount + T' d)
    (hTo : ∀ x, x ≠ d → T' x = T x)
    (hR : ((f D).refCount : Int) + R d = D.refCount + R' d)
    (hRo : ∀ x, x ≠ d → R' x = R x) : Accounted (s.modifyPage d f) T' R' A := by
  have hpages : (s.modifyPage d f).pages = update s.pages d (some (f D)) := by
    show update s.pages d ((s.pages d).map f) = _
    rw [hd]
    rfl
  refine h.writePage (some (f D)) hpages rfl rfl rfl (Nat.le_refl _) (h.lt_next hd) ?_ hTo ?_ hRo
    ?_ ?_
  · have hcount := h.objects d D hd
    show ((f D).objRefCount : Int) = _
    omega
  · intro D' hD'
    have hcount := h.mappings d D hd
    rw [← Option.some.inj hD']
    omega
  · intro D' hD' hne
    rw [← Option.some.inj hD', haddr] at hne ⊢
    exact h.used d D hd hne
  · intro x X hxd hx hne
    refine ⟨h.used x X hx hne, fun D' hD' => ?_⟩
    rw [← Option.some.inj hD', haddr]
    exact h.frame_ne hd hx hxd hne

/-- Adding to the difference of one page. -/
theorem add_tally_of_ne (T : PagePtr → Int) (d : PagePtr) :
    ∀ x, x ≠ d → (T + tally (some d)) x = T x := by
  intro x hx
  rw [Pi.add_apply, tally_of_ne hx]
  omega

theorem sub_tally_of_ne (T : PagePtr → Int) (d : PagePtr) :
    ∀ x, x ≠ d → (T - tally (some d)) x = T x := by
  intro x hx
  rw [Pi.sub_apply, tally_of_ne hx]
  omega

theorem Accounted.copyPage (h : Accounted s T R A) {d : PagePtr} {D : PageData}
    (hd : s.pages d = some D) : Accounted (s.copyPage d) (T + tally (some d)) R A := by
  refine h.modifyPage hd _ rfl ?_ (add_tally_of_ne T d) rfl (fun _ _ => rfl)
  rw [Pi.add_apply, tally_self]
  show ((D.objRefCount + 1 : Nat) : Int) + T d = D.objRefCount + (T d + 1)
  omega

theorem Accounted.refPage (h : Accounted s T R A) {d : PagePtr} {D : PageData}
    (hd : s.pages d = some D) : Accounted (s.refPage d) T (R + tally (some d)) A := by
  refine h.modifyPage hd _ rfl rfl (fun _ _ => rfl) ?_ (add_tally_of_ne R d)
  rw [Pi.add_apply, tally_self]
  show ((D.refCount + 1 : Nat) : Int) + R d = D.refCount + (R d + 1)
  omega

theorem Accounted.unrefPage (h : Accounted s T R A) {d : PagePtr} {D : PageData}
    (hd : s.pages d = some D) (hpos : 0 < (refs (mapped s.maps) d : Int) + R d) :
    Accounted (s.unrefPage d) T (R - tally (some d)) A := by
  refine h.modifyPage hd _ rfl rfl (fun _ _ => rfl) ?_ (sub_tally_of_ne R d)
  have hcount := h.mappings d D hd
  rw [Pi.sub_apply, tally_self]
  show ((D.refCount - 1 : Nat) : Int) + R d = D.refCount + (R d - 1)
  omega

theorem Accounted.setFlags (h : Accounted s T R A) {d : PagePtr} {D : PageData}
    (hd : s.pages d = some D) (flags : PageFlags) : Accounted (s.setFlags d flags) T R A :=
  h.modifyPage hd _ rfl rfl (fun _ _ => rfl) rfl (fun _ _ => rfl)

theorem Accounted.setCopyOnWrite (h : Accounted s T R A) {d : PagePtr} {D : PageData}
    (hd : s.pages d = some D) (b : Bool) : Accounted (s.setCopyOnWrite d b) T R A :=
  h.modifyPage hd _ rfl rfl (fun _ _ => rfl) rfl (fun _ _ => rfl)

/-- **A page object is created**, held by a local. -/
theorem Accounted.newPage (h : Accounted s T R A) {frame : Nat}
    (hframe : frame = 0 ∨ s.used frame = false) :
    Accounted (s.newPage frame).2 (T + tally (some s.next)) R A := by
  obtain ⟨hnone, -, hunmapped⟩ := h.fresh s.next (Nat.le_refl _)
  refine h.writePage (some ⟨frame, 0, 1, defaultFlags, false⟩) rfl rfl rfl rfl (Nat.le_succ _)
    (Nat.lt_succ_self _) ?_ (add_tally_of_ne T s.next) ?_ (fun _ _ => rfl) ?_ ?_
  · have hdead := h.dead s.next hnone
    rw [Pi.add_apply, tally_self]
    show ((1 : Nat) : Int) = _
    omega
  · intro D hD
    rw [← Option.some.inj hD]
    show ((0 : Nat) : Int) = _
    omega
  · intro D hD hne
    rw [← Option.some.inj hD] at hne ⊢
    show (if frame = 0 then s.used else update s.used frame true) frame = true
    rw [if_neg hne, update_self]
  · intro x X _ hx hne
    have hin := h.used x X hx hne
    -- the new frame is none of those in use
    have hXf : X.addr ≠ frame := by
      intro heq
      cases hframe with
      | inl hzero => exact hne (heq.trans hzero)
      | inr hnot => rw [heq, hnot] at hin; cases hin
    refine ⟨?_, fun D hD => Option.some.inj hD ▸ hXf⟩
    show (if frame = 0 then s.used else update s.used frame true) X.addr = true
    split
    · exact hin
    · rw [update_of_ne hXf]
      exact hin

/-! ## §5. The end of a page object. -/

theorem page_eq {d : PagePtr} {D : PageData} (hd : s.pages d = some D) : s.page d = D := by
  unfold Kernel.page
  rw [hd]
  rfl

/-- The frame goes back when nothing maps the page. -/
theorem destroyPage_last {d : PagePtr} {D : PageData} (hd : s.pages d = some D)
    (hone : D.objRefCount = 1) :
    s.destroyPage d
      = (if D.refCount = 0 ∧ D.addr ≠ 0 then s.pfree D.addr else s).setPage d none := by
  unfold Kernel.destroyPage
  rw [page_eq hd, if_pos hone]

theorem destroyPage_more {d : PagePtr} {D : PageData} (hd : s.pages d = some D)
    (hone : D.objRefCount ≠ 1) :
    s.destroyPage d = s.modifyPage d fun D => { D with objRefCount := D.objRefCount - 1 } := by
  unfold Kernel.destroyPage
  rw [page_eq hd, if_neg hone]

theorem destroyPage_frame (s : Kernel) (d : PagePtr) :
    (s.destroyPage d).procs = s.procs ∧ (s.destroyPage d).anons = s.anons
      ∧ (s.destroyPage d).sharedPages = s.sharedPages ∧ (s.destroyPage d).mem = s.mem
      ∧ (s.destroyPage d).next = s.next := by
  unfold Kernel.destroyPage
  split
  · dsimp only
    split
    · exact ⟨rfl, rfl, rfl, rfl, rfl⟩
    · exact ⟨rfl, rfl, rfl, rfl, rfl⟩
  · exact ⟨rfl, rfl, rfl, rfl, rfl⟩

theorem destroyPage_maps (s : Kernel) (d : PagePtr) : (s.destroyPage d).maps = s.maps := by
  unfold Kernel.maps
  rw [(destroyPage_frame s d).1]

theorem destroyPage_holder (s : Kernel) (d : PagePtr) : (s.destroyPage d).holder = s.holder := by
  have hframe := destroyPage_frame s d
  apply holder_congr (destroyPage_maps s d) _ hframe.2.1 hframe.2.2.1
  unfold Kernel.status
  rw [hframe.1]

theorem destroyPage_pages_of_ne (s : Kernel) {d x : PagePtr} (hxd : x ≠ d) :
    (s.destroyPage d).pages x = s.pages x := by
  unfold Kernel.destroyPage
  split
  · dsimp only
    split
    · exact update_of_ne hxd _ _
    · exact update_of_ne hxd _ _
  · exact update_of_ne hxd _ _

/-- Only pages that were alive are alive. -/
theorem destroyPage_pages {d x : PagePtr} {X : PageData}
    (hx : (s.destroyPage d).pages x = some X) :
    ∃ Y, s.pages x = some Y ∧ Y.addr = X.addr ∧ Y.flags = X.flags
      ∧ Y.copyOnWrite = X.copyOnWrite ∧ Y.refCount = X.refCount := by
  by_cases hxd : x = d
  · subst hxd
    unfold Kernel.destroyPage at hx
    split at hx
    · -- the object is gone
      dsimp only [Kernel.setPage] at hx
      rw [update_self] at hx
      cases hx
    · dsimp only [Kernel.modifyPage, Kernel.setPage] at hx
      rw [update_self] at hx
      cases hY : s.pages x with
      | none => rw [hY] at hx; cases hx
      | some Y =>
          rw [hY] at hx
          rw [← Option.some.inj hx]
          exact ⟨Y, rfl, rfl, rfl, rfl, rfl⟩
  · rw [destroyPage_pages_of_ne s hxd] at hx
    exact ⟨X, hx, rfl, rfl, rfl, rfl⟩

/-- The last object of a page that no longer counts: the page dies. -/
theorem Accounted.erasePage (h : Accounted s T R A) {d : PagePtr} {D : PageData}
    (hd : s.pages d = some D) (hone : D.objRefCount = 1) :
    Accounted (s.destroyPage d) (T - tally (some d)) R A := by
  have hframe := destroyPage_frame s d
  have hpages : (s.destroyPage d).pages = update s.pages d none := by
    rw [destroyPage_last hd hone]
    split
    · rfl
    · rfl
  refine h.writePage none hpages (destroyPage_holder s d) (destroyPage_maps s d) hframe.2.1
    (Nat.le_of_eq hframe.2.2.2.2.symm) ?_ ?_ (sub_tally_of_ne T d) (fun _ hD => nomatch hD)
    (fun _ _ => rfl) (fun _ hD => nomatch hD) ?_
  · rw [hframe.2.2.2.2]
    exact h.lt_next hd
  · have hcount := h.objects d D hd
    rw [hone] at hcount
    rw [Pi.sub_apply, tally_self]
    show (0 : Int) = _
    omega
  · intro x X hxd hx hne
    refine ⟨?_, fun _ hD => nomatch hD⟩
    rw [destroyPage_last hd hone]
    show (if D.refCount = 0 ∧ D.addr ≠ 0 then s.pfree D.addr else s).used X.addr = true
    split
    · -- only the frame of `d` is given back
      show update s.used D.addr false X.addr = true
      rw [update_of_ne (h.frame_ne hd hx hxd hne)]
      exact h.used x X hx hne
    · exact h.used x X hx hne

/-- **A `PhysicalPage` ends.** -/
theorem Accounted.destroyPage (h : Accounted s T R A) {d : PagePtr}
    (hpos : 0 < (refs s.holder d : Int) + T d) :
    Accounted (s.destroyPage d) (T - tally (some d)) R A := by
  obtain ⟨D, hd⟩ := h.live hpos
  have hcount := h.objects d D hd
  by_cases hone : D.objRefCount = 1
  · exact h.erasePage hd hone
  · rw [destroyPage_more hd hone]
    refine h.modifyPage hd _ rfl ?_ (sub_tally_of_ne T d) rfl (fun _ _ => rfl)
    rw [Pi.sub_apply, tally_self]
    show ((D.objRefCount - 1 : Nat) : Int) + T d = D.objRefCount + (T d - 1)
    omega

/-! ## §6. Processes, vnodes and shared anonymous pages. -/

theorem maps_setProc (s : Kernel) (p : Nat) (proc : Process) :
    (s.setProc p proc).maps = update s.maps p proc.memorymap := by
  funext q b
  show (update s.procs p proc q).memorymap b = _
  by_cases hq : q = p
  · subst hq
    rw [update_self, update_self]
  · rw [update_of_ne hq, update_of_ne hq]
    rfl

theorem status_setProc (s : Kernel) (p : Nat) (proc : Process) :
    (s.setProc p proc).status = update s.status p proc.status := by
  funext q
  show (update s.procs p proc q).status = _
  by_cases hq : q = p
  · subst hq
    rw [update_self, update_self]
  · rw [update_of_ne hq, update_of_ne hq]
    rfl

/-- The page table of a process is no part of the counts. -/
theorem maps_setPager (s : Kernel) (p : Nat) (T : Paging.PageMap) :
    (s.setProc p { s.procs p with pager := T }).maps = s.maps := by
  rw [maps_setProc]
  exact update_eq_self p s.maps

theorem status_setPager (s : Kernel) (p : Nat) (T : Paging.PageMap) :
    (s.setProc p { s.procs p with pager := T }).status = s.status := by
  rw [status_setProc]
  exact update_eq_self p s.status

theorem Accounted.map (h : Accounted s T R A) (p a frame : Nat) (flags : PageFlags) :
    Accounted (s.map p a frame flags) T R A :=
  h.congr rfl rfl rfl rfl (maps_setPager s p _) (status_setPager s p _) rfl

theorem Accounted.unmap (h : Accounted s T R A) (p a : Nat) : Accounted (s.unmap p a) T R A :=
  h.congr rfl rfl rfl rfl (maps_setPager s p _) (status_setPager s p _) rfl

theorem Accounted.setFrame (h : Accounted s T R A) (frame : Nat) (bytes : Bytes) :
    Accounted (s.setFrame frame bytes) T R A :=
  h.congr rfl rfl rfl rfl rfl rfl rfl

theorem maps_halt (s : Kernel) (p : Nat) (held : Option PagePtr) : (s.halt p held).maps = s.maps := by
  unfold Kernel.halt
  rw [maps_setProc]
  exact update_eq_self p s.maps

theorem status_halt (s : Kernel) (p : Nat) (held : Option PagePtr) :
    (s.halt p held).status = update s.status p (.stuck held) :=
  status_setProc s p _

theorem holder_halt (s : Kernel) (p : Nat) (held : Option PagePtr) :
    (s.halt p held).holder = update s.holder (.handler p) held := by
  rw [Function.eq_update_iff]
  constructor
  · show ((s.halt p held).status p).held = held
    rw [status_halt, update_self]
    rfl
  · intro i hi
    cases i with
    | slot q b =>
        show mapped (s.halt p held).maps (q, b) = mapped s.maps (q, b)
        rw [maps_halt]
    | anon o => rfl
    | cache file offset => rfl
    | handler q =>
        have hq : q ≠ p := fun h => hi (congrArg Holder.handler h)
        show ((s.halt p held).status q).held = (s.status q).held
        rw [status_halt, update_of_ne hq]

/-- **A process stops**: its handler keeps what it holds. -/
theorem Accounted.halt (h : Accounted s T R A) {p : Nat} (hp : (s.status p).held = none)
    (held : Option PagePtr) : Accounted (s.halt p held) (T - tally held) R A := by
  refine h.move rfl rfl rfl (fun o => rfl) ?_ ?_ ?_ ?_ ?_
  · rw [holder_halt]
    exact h.holderFinite.update _ _
  · rw [maps_halt]
    exact h.sharersFinite
  · intro d
    have hnone : s.holder (.handler p) = none := hp
    rw [holder_halt, refs_update h.holderFinite, hnone]
    show (refs s.holder d - 0 + tally held d + (T d - tally held d) : Int) = _
    omega
  · intro d
    rw [maps_halt]
  · intro o
    rw [maps_halt]

theorem holder_setSharedPage (s : Kernel) (file offset : Nat) (d : Option PagePtr) :
    (s.setSharedPage file offset d).holder = update s.holder (.cache file offset) d := by
  rw [Function.eq_update_iff]
  constructor
  · show update s.sharedPages file (update (s.sharedPages file) offset d) file
      offset = d
    rw [update_self, update_self]
  · intro i hi
    cases i with
    | slot q b => rfl
    | anon o => rfl
    | cache f o =>
        show update s.sharedPages file (update (s.sharedPages file) offset d) f o
          = s.sharedPages f o
        by_cases hf : f = file
        · have ho : o ≠ offset := fun h => hi (by rw [hf, h])
          rw [hf, update_self, update_of_ne ho]
        · rw [update_of_ne hf]
    | handler q => rfl

/-- The vnode takes a page, or gives one up. -/
theorem Accounted.setSharedPage (h : Accounted s T R A) (file offset : Nat) (d : Option PagePtr) :
    Accounted (s.setSharedPage file offset d)
      (T + tally (s.sharedPages file offset) - tally d) R A := by
  refine h.move rfl rfl rfl (fun o => rfl) ?_ h.sharersFinite ?_ (fun _ => rfl) (fun _ => rfl)
  · rw [holder_setSharedPage]
    exact h.holderFinite.update _ _
  · intro x
    rw [holder_setSharedPage, refs_update h.holderFinite]
    show (refs s.holder x - tally (s.sharedPages file offset) x + tally d x
      + (T x + tally (s.sharedPages file offset) x - tally d x) : Int) = _
    omega

theorem holder_setAnon (s : Kernel) (o : AnonPtr) (v : Option SharedAnonymousPage) :
    (s.setAnon o v).holder
      = update s.holder (.anon o) (v.bind SharedAnonymousPage.page) := by
  rw [Function.eq_update_iff]
  constructor
  · show (update s.anons o v o).bind _ = _
    rw [update_self]
  · intro i hi
    cases i with
    | slot q b => rfl
    | anon x =>
        have hx : x ≠ o := fun h => hi (congrArg Holder.anon h)
        show (update s.anons o v x).bind _ = (s.anons x).bind _
        rw [update_of_ne hx]
    | cache f x => rfl
    | handler q => rfl

/-- The references a shared anonymous page counts. -/
def countOf (v : Option SharedAnonymousPage) : Int :=
  (v.map fun O => (O.refCount : Int)).getD 0

/-- **A shared anonymous page is written**, its count and its page included. -/
theorem Accounted.setAnon (h : Accounted s T R A) {o : AnonPtr} (v : Option SharedAnonymousPage)
    (hlt : o < s.next) (hA : countOf v = refs (sharers s.maps) o + A' o)
    (hAo : ∀ x, x ≠ o → A' x = A x) :
    Accounted (s.setAnon o v)
      (T + tally (s.holder (.anon o)) - tally (v.bind SharedAnonymousPage.page)) R A' := by
  have hholder := holder_setAnon s o v
  have hself : (s.setAnon o v).anons o = v := update_self _ _ _
  have hother : ∀ x, x ≠ o → (s.setAnon o v).anons x = s.anons x := fun x hx =>
    update_of_ne hx _ _
  have hsum : ∀ d, (refs (s.setAnon o v).holder d : Int)
      + (T + tally (s.holder (.anon o)) - tally (v.bind SharedAnonymousPage.page)) d
      = refs s.holder d + T d := by
    intro d
    rw [hholder, refs_update h.holderFinite]
    show (refs s.holder d - tally (s.holder (.anon o)) d
      + tally (v.bind SharedAnonymousPage.page) d
      + (T d + tally (s.holder (.anon o)) d - tally (v.bind SharedAnonymousPage.page) d) : Int) = _
    omega
  constructor
  case holderFinite => rw [hholder]; exact h.holderFinite.update _ _
  case sharersFinite => exact h.sharersFinite
  case objects => intro d D hd; rw [hsum]; exact h.objects d D hd
  case mappings => exact h.mappings
  case dead => intro d hd; rw [hsum]; exact h.dead d hd
  case anons =>
    intro x X hx
    show (X.refCount : Int) = refs (sharers s.maps) x + A' x
    by_cases hxo : x = o
    · subst hxo
      rw [← hA, ← hself, hx]
      rfl
    · rw [hother x hxo] at hx
      rw [hAo x hxo]
      exact h.anons x X hx
  case deadAnons =>
    intro x hx
    show (refs (sharers s.maps) x : Int) + A' x = 0
    by_cases hxo : x = o
    · subst hxo
      rw [← hA, ← hself, hx]
      rfl
    · rw [hother x hxo] at hx
      rw [hAo x hxo]
      exact h.deadAnons x hx
  case fresh =>
    intro x hx
    have hold := h.fresh x hx
    refine ⟨hold.1, ?_, hold.2.2⟩
    rw [hother x (Nat.ne_of_gt (Nat.lt_of_lt_of_le hlt hx))]
    exact hold.2.1
  case used => exact h.used
  case frames => exact h.frames

theorem Accounted.anon_lt_next (h : Accounted s T R A) {o : AnonPtr} {O : SharedAnonymousPage}
    (ho : s.anons o = some O) : o < s.next := by
  by_contra hlt
  have hfresh := h.fresh o (Nat.not_lt.mp hlt)
  rw [hfresh.2.1] at ho
  cases ho

theorem holder_anon {o : AnonPtr} {O : SharedAnonymousPage} (ho : s.anons o = some O) :
    s.holder (.anon o) = O.page := by
  show (s.anons o).bind SharedAnonymousPage.page = O.page
  rw [ho]
  rfl

theorem modifyAnon_eq {o : AnonPtr} {O : SharedAnonymousPage} (ho : s.anons o = some O)
    (f : SharedAnonymousPage → SharedAnonymousPage) :
    s.modifyAnon o f = s.setAnon o (some (f O)) := by
  unfold Kernel.modifyAnon
  rw [ho]
  rfl

theorem Accounted.setAnonPage (h : Accounted s T R A) {o : AnonPtr} {O : SharedAnonymousPage}
    (ho : s.anons o = some O) (d : PagePtr) :
    Accounted (s.setAnonPage o d) (T + tally O.page - tally (some d)) R A := by
  unfold Kernel.setAnonPage
  rw [modifyAnon_eq ho]
  have hset := h.setAnon (some { O with page := some d }) (h.anon_lt_next ho) (h.anons o O ho)
    (fun _ _ => rfl)
  rw [holder_anon ho] at hset
  exact hset

/-- One more pointer to a shared anonymous entry. -/
theorem Accounted.refAnon (h : Accounted s T R A) {o : AnonPtr} {O : SharedAnonymousPage}
    (ho : s.anons o = some O) : Accounted (s.refAnon o) T R (A + tally (some o)) := by
  unfold Kernel.refAnon
  rw [modifyAnon_eq ho]
  have hcount := h.anons o O ho
  have hset := h.setAnon (some { O with refCount := O.refCount + 1 }) (h.anon_lt_next ho)
    (by
      show ((O.refCount + 1 : Nat) : Int) = _ + (A o + tally (some o) o)
      rw [tally_self]
      omega)
    (add_tally_of_ne A o)
  rw [holder_anon ho] at hset
  exact hset.of_eq (add_sub_cancel_right T _) rfl rfl

theorem Accounted.newAnon (h : Accounted s T R A) (flags : PageFlags) (zero : Bool) :
    Accounted (s.newAnon flags zero).2 T R (A + tally (some s.next)) := by
  have hfresh := h.fresh s.next (Nat.le_refl _)
  have hdead := h.deadAnons s.next hfresh.2.1
  let s' : Kernel := { s with next := s.next + 1 }
  have hbump : Accounted s' T R A :=
    { h with fresh := fun d hd => h.fresh d (Nat.le_of_succ_le hd) }
  have hset := hbump.setAnon (some ⟨flags, zero, none, 1⟩) (Nat.lt_succ_self s.next)
    (by
      show ((1 : Nat) : Int) = refs (sharers s.maps) s.next + (A s.next + tally (some s.next) s.next)
      rw [tally_self]
      omega)
    (add_tally_of_ne A s.next)
  have hnone : s'.holder (.anon s.next) = none := by
    show (s.anons s.next).bind _ = none
    rw [hfresh.2.1]
    rfl
  rw [hnone] at hset
  exact hset.of_eq (by simp) rfl rfl

/-- The last pointer to a shared anonymous entry: its page is left over. -/
theorem Accounted.lastAnon (h : Accounted s T R A) {o : AnonPtr} {O : SharedAnonymousPage}
    (ho : s.anons o = some O) (hone : O.refCount = 1) :
    Accounted (s.setAnon o none) (T + tally O.page) R (A - tally (some o)) := by
  have hcount := h.anons o O ho
  have hset := h.setAnon (none : Option SharedAnonymousPage) (h.anon_lt_next ho)
    (by
      show (0 : Int) = _ + (A o - tally (some o) o)
      rw [tally_self]
      omega)
    (sub_tally_of_ne A o)
  rw [holder_anon ho] at hset
  exact hset.of_eq (by simp) rfl rfl

/-- **A pointer to a shared anonymous entry ends**; the last one gives up the
page. -/
theorem Accounted.dropAnon (h : Accounted s T R A) (hT : ∀ d, 0 ≤ T d) {o : AnonPtr}
    (hpos : 0 < (refs (sharers s.maps) o : Int) + A o) :
    Accounted (s.dropAnon o) T R (A - tally (some o)) := by
  cases ho : s.anons o with
  | none =>
      have hdead := h.deadAnons o ho
      omega
  | some O =>
      have hcount := h.anons o O ho
      have hlt := h.anon_lt_next ho
      have hO : s.anon o = O := by
        unfold Kernel.anon
        rw [ho]
        rfl
      unfold Kernel.dropAnon
      rw [hO]
      by_cases hone : O.refCount = 1
      · rw [if_pos hone]
        have hset := h.lastAnon ho hone
        dsimp only
        cases hd : O.page with
        | none =>
            rw [hd] at hset
            exact hset.of_eq (by simp) rfl rfl
        | some d =>
            rw [hd] at hset
            have hheld : 0 < refs s.holder d :=
              refs_pos h.holderFinite (i := Holder.anon o) (by rw [holder_anon ho, hd])
            have hend := hset.destroyPage (d := d) (by
              rw [holder_setAnon, refs_update h.holderFinite, holder_anon ho, hd]
              show (0 : Int) < refs s.holder d - tally (some d) d + 0
                + (T d + tally (some d) d)
              have := hT d
              omega)
            exact hend.of_eq (by simp) rfl rfl
      · rw [if_neg hone]
        rw [modifyAnon_eq ho]
        have hset := h.setAnon (some { O with refCount := O.refCount - 1 }) hlt
          (by
            show ((O.refCount - 1 : Nat) : Int) = _ + (A o - tally (some o) o)
            rw [tally_self]
            omega)
          (sub_tally_of_ne A o)
        rw [holder_anon ho] at hset
        exact hset.of_eq (add_sub_cancel_right T _) rfl rfl

end MierOS.Tasking
