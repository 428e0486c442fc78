/-
  MierOS.Tasking.Refinement
  **THE KERNEL REFINES THE ADDRESS SPACES.**

  `Sim s v T R A` relates a kernel state to an abstract one in the middle of an
  operation: the counts of `s` are off by `T`, `R` and `A` (`Tasking.Counts`),
  and everything else of `s` is what `v` says.  One lemma for each primitive
  moves both sides at once; the operations follow the code step by step, and
  end with the counts right again (`Tasking.Simulation`).
-/
import MierOS.Tasking.AddressSpace

namespace MierOS.Tasking

open Memory.Virtual
open Lib.Refs
open Function (update update_eq_self update_of_ne update_self)

/-! ## §1. The relation. -/

/-- **The kernel state is the address spaces**, with frames and counts. -/
structure Sim (s : Kernel) (v : Space) (T R : PagePtr → Int) (A : AnonPtr → Int) : Prop where
  accounted : Accounted s T R A
  maps : v.maps = s.maps
  table : ∀ p a, (s.procs p).pager a = (v.table p a).map fun e => ((v.pages e.1).addr, e.2)
  tableLt : ∀ p a e, v.table p a = some e → e.1 < v.next
  status : v.status = s.status
  absent : ∀ p, v.status p = .absent → v.maps p = (fun _ => none) ∧ v.table p = (fun _ => none)
  pages : ∀ d D, s.pages d = some D → (v.pages d).addr = D.addr ∧ (v.pages d).flags = D.flags
    ∧ (v.pages d).copyOnWrite = D.copyOnWrite
  contents : ∀ d D, s.pages d = some D → D.addr ≠ 0 → s.mem D.addr = (v.pages d).bytes
  anons : ∀ o O, s.anons o = some O → (v.anons o).flags = O.flags ∧ (v.anons o).zero = O.zero
    ∧ (v.anons o).page = O.page
  sharedPages : v.sharedPages = s.sharedPages
  next : v.next = s.next

variable {s s' : Kernel} {v : Space} {T T' R R' : PagePtr → Int} {A A' : AnonPtr → Int}

theorem Sim.of_eq (h : Sim s v T R A) (hT : T = T') (hR : R = R') (hA : A = A') :
    Sim s v T' R' A' := hT ▸ hR ▸ hA ▸ h

/-- A page that somebody holds is alive. -/
theorem Sim.live (h : Sim s v T R A) {d : PagePtr} (hd : 0 < (refs s.holder d : Int) + T d) :
    ∃ D, s.pages d = some D := h.accounted.live hd

theorem Sim.held_live (h : Sim s v T R A) (hT : ∀ d, 0 ≤ T d) {i : Holder} {d : PagePtr}
    (hi : s.holder i = some d) : ∃ D, s.pages d = some D := by
  apply h.live
  have hpos := refs_pos h.accounted.holderFinite hi
  have hnn := hT d
  omega

theorem Sim.holder_slot (h : Sim s v T R A) {p a : Nat} {e : MemoryEntry}
    (he : v.maps p a = some e) : s.holder (.slot p a) = e.held := by
  show (s.maps p a).bind MemoryEntry.held = e.held
  rw [← h.maps, he]
  rfl

theorem Sim.addr_eq (h : Sim s v T R A) {d : PagePtr} {D : PageData} (hd : s.pages d = some D) :
    (s.page d).addr = (v.pages d).addr := by
  rw [page_eq hd, (h.pages d D hd).1]

theorem Sim.flags_eq (h : Sim s v T R A) {d : PagePtr} {D : PageData} (hd : s.pages d = some D) :
    (s.page d).flags = (v.pages d).flags := by
  rw [page_eq hd, (h.pages d D hd).2.1]

theorem Sim.copyOnWrite_eq (h : Sim s v T R A) {d : PagePtr} {D : PageData}
    (hd : s.pages d = some D) : (s.page d).copyOnWrite = (v.pages d).copyOnWrite := by
  rw [page_eq hd, (h.pages d D hd).2.2]

/-- The count of mappings is the number of mappings. -/
theorem Sim.refCount_eq (h : Sim s v T 0 A) {d : PagePtr} {D : PageData} (hd : s.pages d = some D) :
    (s.page d).refCount = v.readers d := by
  have hcount := h.accounted.mappings d D hd
  rw [page_eq hd]
  show D.refCount = refs (mapped v.maps) d
  rw [h.maps]
  have hzero : (0 : PagePtr → Int) d = 0 := rfl
  omega

/-! ## §2. Primitives on page objects. -/

/-- Only counts change, or pages die. -/
theorem Sim.counts (h : Sim s v T R A) (hacc : Accounted s' T' R' A')
    (hprocs : s'.procs = s.procs) (hanons : s'.anons = s.anons)
    (hcache : s'.sharedPages = s.sharedPages) (hmem : s'.mem = s.mem) (hnext : s'.next = s.next)
    (hpages : ∀ x X, s'.pages x = some X → ∃ Y, s.pages x = some Y ∧ Y.addr = X.addr
      ∧ Y.flags = X.flags ∧ Y.copyOnWrite = X.copyOnWrite) : Sim s' v T' R' A' where
  accounted := hacc
  maps := by
    rw [h.maps]
    unfold Kernel.maps
    rw [hprocs]
  table p a := by rw [hprocs, h.table]
  tableLt := h.tableLt
  status := by
    rw [h.status]
    unfold Kernel.status
    rw [hprocs]
  absent := h.absent
  pages d D hd := by
    obtain ⟨Y, hY, haddr, hflags, hcow⟩ := hpages d D hd
    rw [← haddr, ← hflags, ← hcow]
    exact h.pages d Y hY
  contents d D hd hne := by
    obtain ⟨Y, hY, haddr, -, -⟩ := hpages d D hd
    rw [hmem, ← haddr]
    exact h.contents d Y hY (haddr ▸ hne)
  anons o O ho := h.anons o O (hanons ▸ ho)
  sharedPages := by rw [h.sharedPages, hcache]
  next := by rw [h.next, hnext]

/-- A change of one page object, read back. -/
theorem modifyPage_pages {d : PagePtr} {f : PageData → PageData} {x : PagePtr} {X : PageData}
    (hx : (s.modifyPage d f).pages x = some X) :
    ∃ Y, s.pages x = some Y ∧ X = if x = d then f Y else Y := by
  by_cases hxd : x = d
  · subst hxd
    unfold Kernel.modifyPage Kernel.setPage at hx
    dsimp only at hx
    rw [update_self] at hx
    cases hY : s.pages x with
    | none => rw [hY] at hx; cases hx
    | some Y =>
        rw [hY] at hx
        refine ⟨Y, rfl, ?_⟩
        rw [if_pos rfl]
        exact (Option.some.inj hx).symm
  · unfold Kernel.modifyPage Kernel.setPage at hx
    dsimp only at hx
    rw [update_of_ne hxd] at hx
    refine ⟨X, hx, ?_⟩
    rw [if_neg hxd]

/-- A change that keeps address, flags and the copy-on-write mark. -/
theorem modifyPage_keeps {d : PagePtr} {f : PageData → PageData}
    (hf : ∀ Y, (f Y).addr = Y.addr ∧ (f Y).flags = Y.flags ∧ (f Y).copyOnWrite = Y.copyOnWrite)
    {x : PagePtr} {X : PageData} (hx : (s.modifyPage d f).pages x = some X) :
    ∃ Y, s.pages x = some Y ∧ Y.addr = X.addr ∧ Y.flags = X.flags
      ∧ Y.copyOnWrite = X.copyOnWrite := by
  obtain ⟨Y, hY, hX⟩ := modifyPage_pages hx
  refine ⟨Y, hY, ?_⟩
  by_cases hxd : x = d
  · rw [if_pos hxd] at hX
    have hkeep := hf Y
    rw [hX]
    exact ⟨hkeep.1.symm, hkeep.2.1.symm, hkeep.2.2.symm⟩
  · rw [if_neg hxd] at hX
    rw [hX]
    exact ⟨rfl, rfl, rfl⟩

/-- Only the counts of a page change. -/
theorem Sim.recount (h : Sim s v T R A) {d : PagePtr} {f : PageData → PageData}
    (hacc : Accounted (s.modifyPage d f) T' R' A)
    (hf : ∀ Y, (f Y).addr = Y.addr ∧ (f Y).flags = Y.flags ∧ (f Y).copyOnWrite = Y.copyOnWrite) :
    Sim (s.modifyPage d f) v T' R' A :=
  h.counts hacc rfl rfl rfl rfl rfl (fun _ _ hx => modifyPage_keeps hf hx)

theorem Sim.copyPage (h : Sim s v T R A) {d : PagePtr} {D : PageData} (hd : s.pages d = some D) :
    Sim (s.copyPage d) v (T + tally (some d)) R A :=
  h.recount (h.accounted.copyPage hd) (fun _ => ⟨rfl, rfl, rfl⟩)

theorem Sim.refPage (h : Sim s v T R A) {d : PagePtr} {D : PageData} (hd : s.pages d = some D) :
    Sim (s.refPage d) v T (R + tally (some d)) A :=
  h.recount (h.accounted.refPage hd) (fun _ => ⟨rfl, rfl, rfl⟩)

theorem Sim.unrefPage (h : Sim s v T R A) {d : PagePtr} {D : PageData} (hd : s.pages d = some D)
    (hpos : 0 < (refs (mapped s.maps) d : Int) + R d) :
    Sim (s.unrefPage d) v T (R - tally (some d)) A :=
  h.recount (h.accounted.unrefPage hd hpos) (fun _ => ⟨rfl, rfl, rfl⟩)

theorem Sim.destroyPage (h : Sim s v T R A) {d : PagePtr}
    (hpos : 0 < (refs s.holder d : Int) + T d) :
    Sim (s.destroyPage d) v (T - tally (some d)) R A := by
  have hframe := destroyPage_frame s d
  apply h.counts (h.accounted.destroyPage hpos) hframe.1 hframe.2.1 hframe.2.2.1
    hframe.2.2.2.1 hframe.2.2.2.2
  intro x X hx
  obtain ⟨Y, hY, haddr, hflags, hcow, -⟩ := destroyPage_pages hx
  exact ⟨Y, hY, haddr, hflags, hcow⟩

/-- An attribute of a page changes, on both sides. -/
theorem Sim.modifyPage (h : Sim s v T R A) {d : PagePtr} (f : PageData → PageData)
    (g : PageInfo → PageInfo) (hacc : Accounted (s.modifyPage d f) T R A)
    (haddr : ∀ Y, (f Y).addr = Y.addr) (hgaddr : ∀ Y, (g Y).addr = Y.addr)
    (hbytes : ∀ Y, (g Y).bytes = Y.bytes)
    (hflags : ∀ Y Z, Z.flags = Y.flags → (g Z).flags = (f Y).flags)
    (hcow : ∀ Y Z, Z.copyOnWrite = Y.copyOnWrite → (g Z).copyOnWrite = (f Y).copyOnWrite) :
    Sim (s.modifyPage d f) (v.modifyPage d g) T R A := by
  have hself : ∀ x, (v.modifyPage d g).pages x = if x = d then g (v.pages x) else v.pages x := by
    intro x
    by_cases hxd : x = d
    · subst hxd
      rw [if_pos rfl]
      exact update_self _ _ _
    · rw [if_neg hxd]
      exact update_of_ne hxd _ _
  have hsame : ∀ x, ((v.modifyPage d g).pages x).addr = (v.pages x).addr
      ∧ ((v.modifyPage d g).pages x).bytes = (v.pages x).bytes := by
    intro x
    rw [hself]
    split
    · exact ⟨hgaddr _, hbytes _⟩
    · exact ⟨rfl, rfl⟩
  constructor
  case accounted => exact hacc
  case maps => exact h.maps
  case table =>
    intro p a
    show (s.procs p).pager a = (v.table p a).map _
    rw [h.table p a]
    congr 1
    funext e
    rw [(hsame e.1).1]
  case tableLt => exact h.tableLt
  case status => exact h.status
  case absent => exact h.absent
  case pages =>
    intro x X hx
    obtain ⟨Y, hY, hX⟩ := modifyPage_pages hx
    have hold := h.pages x Y hY
    rw [hself]
    by_cases hxd : x = d
    · rw [if_pos hxd] at hX ⊢
      rw [hX, hgaddr, haddr]
      exact ⟨hold.1, hflags _ _ hold.2.1, hcow _ _ hold.2.2⟩
    · rw [if_neg hxd] at hX ⊢
      rw [hX]
      exact hold
  case contents =>
    intro x X hx hne
    obtain ⟨Y, hY, hX⟩ := modifyPage_pages hx
    have hXY : X.addr = Y.addr := by
      rw [hX]
      split
      · exact haddr Y
      · rfl
    rw [(hsame x).2, hXY]
    rw [hXY] at hne
    exact h.contents x Y hY hne
  case anons => exact h.anons
  case sharedPages => exact h.sharedPages
  case next => exact h.next

theorem Sim.setFlags (h : Sim s v T R A) {d : PagePtr} {D : PageData} (hd : s.pages d = some D)
    {flags flags' : PageFlags} (hflags : flags = flags') :
    Sim (s.setFlags d flags) (v.setFlags d flags') T R A := by
  subst hflags
  exact h.modifyPage _ _ (h.accounted.setFlags hd flags) (fun _ => rfl) (fun _ => rfl)
    (fun _ => rfl) (fun _ _ _ => rfl) (fun _ _ hcow => hcow)

theorem Sim.setCopyOnWrite (h : Sim s v T R A) {d : PagePtr} {D : PageData}
    (hd : s.pages d = some D) (b : Bool) :
    Sim (s.setCopyOnWrite d b) (v.setCopyOnWrite d b) T R A :=
  h.modifyPage _ _ (h.accounted.setCopyOnWrite hd b) (fun _ => rfl) (fun _ => rfl) (fun _ => rfl)
    (fun _ _ hflags => hflags) (fun _ _ _ => rfl)

/-- **A frame is written**: only its page shows it.  What frame 0 holds is no
page's contents. -/
theorem Sim.writeFrame (h : Sim s v T R A) {d : PagePtr} {D : PageData} (hd : s.pages d = some D)
    {bytes bytes' : Bytes} (hbytes : D.addr ≠ 0 → bytes = bytes') :
    Sim (s.setFrame D.addr bytes) (v.setBytes d bytes') T R A := by
  have haddr : ∀ x, ((v.setBytes d bytes').pages x).addr = (v.pages x).addr
      ∧ ((v.setBytes d bytes').pages x).flags = (v.pages x).flags
      ∧ ((v.setBytes d bytes').pages x).copyOnWrite = (v.pages x).copyOnWrite := by
    intro x
    unfold Space.setBytes Space.modifyPage
    dsimp only
    by_cases hxd : x = d
    · subst hxd
      rw [update_self]
      exact ⟨rfl, rfl, rfl⟩
    · rw [update_of_ne hxd]
      exact ⟨rfl, rfl, rfl⟩
  constructor
  case accounted => exact h.accounted.setFrame _ _
  case maps => exact h.maps
  case table =>
    intro p a
    show (s.procs p).pager a = (v.table p a).map _
    rw [h.table p a]
    congr 1
    funext e
    rw [(haddr e.1).1]
  case tableLt => exact h.tableLt
  case status => exact h.status
  case absent => exact h.absent
  case pages =>
    intro x X hx
    rw [(haddr x).1, (haddr x).2.1, (haddr x).2.2]
    exact h.pages x X hx
  case contents =>
    intro x X hx hne
    show update s.mem D.addr bytes X.addr = (update v.pages d _ x).bytes
    by_cases hxd : x = d
    · subst hxd
      have hXD : X = D := Option.some.inj (hx.symm.trans hd)
      subst hXD
      rw [update_self, update_self]
      exact hbytes hne
    · -- another page has another frame
      have hframe : X.addr ≠ D.addr := by
        intro heq
        exact hxd (h.accounted.frames x d X D hx hd heq hne)
      rw [update_of_ne hxd, update_of_ne hframe]
      exact h.contents x X hx hne
  case anons => exact h.anons
  case sharedPages => exact h.sharedPages
  case next => exact h.next

theorem Sim.setFrame (h : Sim s v T R A) {d : PagePtr} {D : PageData} (hd : s.pages d = some D)
    (bytes : Bytes) : Sim (s.setFrame (s.page d).addr bytes) (v.setBytes d bytes) T R A := by
  rw [page_eq hd]
  exact h.writeFrame hd (fun _ => rfl)

/-- A new page shows what its frame held. -/
theorem Sim.newPage (h : Sim s v T R A) {frame : Nat} (hframe : frame = 0 ∨ s.used frame = false)
    (kind : Kind) :
    Sim (s.newPage frame).2 (v.newPage kind frame (s.mem frame)) (T + tally (some s.next)) R A := by
  have hother : ∀ x, x ≠ s.next → (v.newPage kind frame (s.mem frame)).pages x = v.pages x := by
    intro x hx
    show update v.pages v.next _ x = v.pages x
    rw [h.next]
    exact update_of_ne hx _ _
  have hself : (v.newPage kind frame (s.mem frame)).pages s.next
      = ⟨kind, frame, defaultFlags, false, s.mem frame⟩ := by
    show update v.pages v.next _ s.next = _
    rw [h.next]
    exact update_self _ _ _
  have hpage : (s.newPage frame).2.pages s.next = some ⟨frame, 0, 1, defaultFlags, false⟩ :=
    update_self _ _ _
  have hold : ∀ x, x ≠ s.next → (s.newPage frame).2.pages x = s.pages x := fun x hx =>
    update_of_ne hx _ _
  constructor
  case accounted => exact h.accounted.newPage hframe
  case maps => exact h.maps
  case table =>
    intro p a
    show (s.procs p).pager a = (v.table p a).map _
    rw [h.table p a]
    cases he : v.table p a with
    | none => rfl
    | some e =>
        have hlt := h.tableLt p a e he
        rw [h.next] at hlt
        rw [Option.map_some, Option.map_some, hother e.1 (Nat.ne_of_lt hlt)]
  case tableLt =>
    intro p a e he
    exact Nat.lt_succ_of_lt (h.tableLt p a e he)
  case status => exact h.status
  case absent => exact h.absent
  case pages =>
    intro x X hx
    by_cases hxn : x = s.next
    · subst hxn
      rw [hpage] at hx
      rw [hself, ← Option.some.inj hx]
      exact ⟨rfl, rfl, rfl⟩
    · rw [hold x hxn] at hx
      rw [hother x hxn]
      exact h.pages x X hx
  case contents =>
    intro x X hx hne
    by_cases hxn : x = s.next
    · subst hxn
      rw [hpage] at hx
      rw [hself, ← Option.some.inj hx]
      rfl
    · rw [hold x hxn] at hx
      rw [hother x hxn]
      exact h.contents x X hx hne
  case anons => exact h.anons
  case sharedPages => exact h.sharedPages
  case next =>
    show v.next + 1 = s.next + 1
    rw [h.next]

/-! ## §3. Primitives on processes. -/

theorem pager_map (s : Kernel) (p a frame : Nat) (flags : PageFlags) (q b : Nat) :
    ((s.map p a frame flags).procs q).pager b
      = if q = p ∧ b = a then some (frame, { flags with present := true })
        else (s.procs q).pager b := by
  unfold Kernel.map Kernel.setProc Paging.PageMap.map
  dsimp only
  by_cases hq : q = p
  · subst hq
    rw [update_self]
    dsimp only
    by_cases hb : b = a
    · subst hb
      rw [if_pos (by omega), if_pos ⟨rfl, rfl⟩, Nat.sub_self, Nat.add_zero]
    · rw [if_neg (by omega), if_neg (by simp [hb])]
  · rw [update_of_ne hq, if_neg (by simp [hq])]

theorem pager_unmap (s : Kernel) (p a q b : Nat) :
    ((s.unmap p a).procs q).pager b = if q = p ∧ b = a then none else (s.procs q).pager b := by
  unfold Kernel.unmap Kernel.setProc Paging.PageMap.unmap
  dsimp only
  by_cases hq : q = p
  · subst hq
    rw [update_self]
    dsimp only
    by_cases hb : b = a
    · subst hb
      rw [if_pos (by omega), if_pos ⟨rfl, rfl⟩]
    · rw [if_neg (by omega), if_neg (by simp [hb])]
  · rw [update_of_ne hq, if_neg (by simp [hq])]

theorem pager_setProc (s : Kernel) {p : Nat} {proc : Process} (hproc : proc.pager = (s.procs p).pager)
    (q : Nat) : ((s.setProc p proc).procs q).pager = (s.procs q).pager := by
  show (update s.procs p proc q).pager = _
  by_cases hq : q = p
  · subst hq
    rw [update_self, hproc]
  · rw [update_of_ne hq]

theorem pager_setEntry (s : Kernel) (p a : Nat) (e : Option MemoryEntry) (q : Nat) :
    ((s.setEntry p a e).procs q).pager = (s.procs q).pager := by
  apply pager_setProc
  rfl

theorem pager_halt (s : Kernel) (p : Nat) (held : Option PagePtr) (q : Nat) :
    ((s.halt p held).procs q).pager = (s.procs q).pager := by
  apply pager_setProc
  rfl

theorem Space.table_setTable (v : Space) (p a : Nat) (pte : Option (PagePtr × PageFlags))
    (q b : Nat) :
    (v.setTable p a pte).table q b = if q = p ∧ b = a then pte else v.table q b := by
  unfold Space.setTable
  dsimp only
  by_cases hq : q = p
  · subst hq
    rw [update_self]
    by_cases hb : b = a
    · subst hb
      rw [update_self, if_pos ⟨rfl, rfl⟩]
    · rw [update_of_ne hb, if_neg (by simp [hb])]
  · rw [update_of_ne hq, if_neg (by simp [hq])]

/-- **A page-table entry is written**, on both sides. -/
theorem Sim.setTable (h : Sim s v T R A) {p a : Nat} (hp : v.status p ≠ .absent)
    {pte : Option (PagePtr × PageFlags)} (hlt : ∀ e, pte = some e → e.1 < v.next)
    (hacc : Accounted s' T R A) (hmaps : s'.maps = s.maps) (hstatus : s'.status = s.status)
    (hpages : s'.pages = s.pages) (hmem : s'.mem = s.mem) (hanons : s'.anons = s.anons)
    (hcache : s'.sharedPages = s.sharedPages) (hnext : s'.next = s.next)
    (htable : ∀ q b, (s'.procs q).pager b
      = if q = p ∧ b = a then pte.map fun e => ((v.pages e.1).addr, e.2)
        else (s.procs q).pager b) : Sim s' (v.setTable p a pte) T R A := by
  constructor
  case accounted => exact hacc
  case maps => rw [hmaps]; exact h.maps
  case table =>
    intro q b
    rw [htable, Space.table_setTable]
    split
    · rfl
    · exact h.table q b
  case tableLt =>
    intro q b e he
    rw [Space.table_setTable] at he
    split at he
    · exact hlt e he
    · exact h.tableLt q b e he
  case status => rw [hstatus]; exact h.status
  case absent =>
    intro q hq
    have hqp : q ≠ p := by
      intro hqp
      exact hp (hqp ▸ hq)
    refine ⟨(h.absent q hq).1, ?_⟩
    funext b
    rw [Space.table_setTable, if_neg (by simp [hqp]), (h.absent q hq).2]
  case pages => intro d D hd; exact h.pages d D (hpages ▸ hd)
  case contents => intro d D hd hne; rw [hmem]; exact h.contents d D (hpages ▸ hd) hne
  case anons => intro o O ho; exact h.anons o O (hanons ▸ ho)
  case sharedPages => rw [hcache]; exact h.sharedPages
  case next => rw [hnext]; exact h.next

theorem Sim.map (h : Sim s v T R A) {p a : Nat} (hp : v.status p ≠ .absent) {d : PagePtr}
    {D : PageData} (hd : s.pages d = some D) {flags flags' : PageFlags} (hflags : flags = flags') :
    Sim (s.map p a (s.page d).addr flags) (v.map p a d flags') T R A := by
  subst hflags
  rw [page_eq hd]
  apply h.setTable hp _ (h.accounted.map p a D.addr flags) (maps_setPager s p _)
    (status_setPager s p _) rfl rfl rfl rfl rfl
  · intro q b
    rw [pager_map]
    split
    · rw [Option.map_some, (h.pages d D hd).1]
    · rfl
  · intro e he
    rw [← Option.some.inj he, h.next]
    exact h.accounted.lt_next hd

theorem Sim.unmap (h : Sim s v T R A) {p a : Nat} (hp : v.status p ≠ .absent) :
    Sim (s.unmap p a) (v.setTable p a none) T R A := by
  apply h.setTable hp _ (h.accounted.unmap p a) (maps_setPager s p _)
    (status_setPager s p _) rfl rfl rfl rfl rfl
  · intro q b
    rw [pager_unmap]
    rfl
  · intro e he
    cases he

/-- **An entry is written**, on both sides. -/
theorem Sim.setEntry (h : Sim s v T R A) {p a : Nat} (hp : v.status p ≠ .absent)
    (e : Option MemoryEntry) :
    Sim (s.setEntry p a e) (v.setEntry p a e)
      (T + tally (mapped s.maps (p, a)) - tally (e.bind MemoryEntry.held))
      (R + tally (mapped s.maps (p, a)) - tally (e.bind MemoryEntry.held))
      (A + tally (sharers s.maps (p, a)) - tally (e.bind MemoryEntry.sharedPtr)) := by
  constructor
  case accounted => exact h.accounted.setEntry p a e
  case maps =>
    rw [maps_setEntry, ← h.maps]
    rfl
  case table =>
    intro q b
    rw [pager_setEntry]
    exact h.table q b
  case tableLt => exact h.tableLt
  case status =>
    rw [status_setEntry]
    exact h.status
  case absent =>
    intro q hq
    have hqp : q ≠ p := by
      intro hqp
      exact hp (hqp ▸ hq)
    refine ⟨?_, (h.absent q hq).2⟩
    funext b
    show v.maps.set p a e q b = none
    rw [Maps.set_of_ne _ _ (by simp [hqp]), (h.absent q hq).1]
  case pages => exact h.pages
  case contents => exact h.contents
  case anons => exact h.anons
  case sharedPages => exact h.sharedPages
  case next => exact h.next

/-- The same, said of the abstract entry that is replaced. -/
theorem Sim.writeEntry (h : Sim s v T R A) {p a : Nat} (hp : v.status p ≠ .absent)
    {old : Option MemoryEntry} (hold : v.maps p a = old) (e : Option MemoryEntry) :
    Sim (s.setEntry p a e) (v.setEntry p a e)
      (T + tally (old.bind MemoryEntry.held) - tally (e.bind MemoryEntry.held))
      (R + tally (old.bind MemoryEntry.held) - tally (e.bind MemoryEntry.held))
      (A + tally (old.bind MemoryEntry.sharedPtr) - tally (e.bind MemoryEntry.sharedPtr)) := by
  rw [← hold, h.maps]
  exact h.setEntry hp e

theorem Sim.halt (h : Sim s v T R A) {p : Nat} (hp : v.status p = .running)
    (held : Option PagePtr) :
    Sim (s.halt p held) (v.setStatus p (.stuck held)) (T - tally held) R A := by
  constructor
  case accounted =>
    apply h.accounted.halt
    rw [← h.status, hp]
    rfl
  case maps =>
    rw [maps_halt]
    exact h.maps
  case table =>
    intro q b
    rw [pager_halt]
    exact h.table q b
  case tableLt => exact h.tableLt
  case status =>
    rw [status_halt, ← h.status]
    rfl
  case absent =>
    intro q hq
    have hq' : update v.status p (.stuck held) q = .absent := hq
    by_cases hqp : q = p
    · subst hqp
      rw [update_self] at hq'
      cases hq'
    · rw [update_of_ne hqp] at hq'
      exact h.absent q hq'
  case pages => exact h.pages
  case contents => exact h.contents
  case anons => exact h.anons
  case sharedPages => exact h.sharedPages
  case next => exact h.next

/-! ## §4. Primitives on vnodes and shared anonymous pages. -/

theorem Sim.setSharedPage (h : Sim s v T R A) (file offset : Nat) (d : Option PagePtr) :
    Sim (s.setSharedPage file offset d) (v.setSharedPage file offset d)
      (T + tally (s.sharedPages file offset) - tally d) R A := by
  constructor
  case accounted => exact h.accounted.setSharedPage file offset d
  case maps => exact h.maps
  case table => exact h.table
  case tableLt => exact h.tableLt
  case status => exact h.status
  case absent => exact h.absent
  case pages => exact h.pages
  case contents => exact h.contents
  case anons => exact h.anons
  case sharedPages =>
    show update v.sharedPages file (update (v.sharedPages file) offset d)
      = update s.sharedPages file (update (s.sharedPages file) offset d)
    rw [h.sharedPages]
  case next => exact h.next

/-- **A shared anonymous page is written**, on both sides. -/
theorem Sim.setAnon (h : Sim s v T R A) {n : Nat} {o : AnonPtr} {O : Option SharedAnonymousPage}
    (hacc : Accounted { s.setAnon o O with next := n } T' R' A') (X : AnonInfo)
    (hn : v.next ≤ n)
    (hO : ∀ Y, O = some Y → X.flags = Y.flags ∧ X.zero = Y.zero ∧ X.page = Y.page) :
    Sim { s.setAnon o O with next := n } { v with anons := update v.anons o X, next := n }
      T' R' A' := by
  constructor
  case accounted => exact hacc
  case maps => exact h.maps
  case table => exact h.table
  case tableLt =>
    intro p a e he
    exact Nat.lt_of_lt_of_le (h.tableLt p a e he) hn
  case status => exact h.status
  case absent => exact h.absent
  case pages => exact h.pages
  case contents => exact h.contents
  case anons =>
    intro x Y hx
    have hx' : update s.anons o O x = some Y := hx
    show (update v.anons o X x).flags = Y.flags
      ∧ (update v.anons o X x).zero = Y.zero
      ∧ (update v.anons o X x).page = Y.page
    by_cases hxo : x = o
    · subst hxo
      rw [update_self] at hx' ⊢
      exact hO Y hx'
    · rw [update_of_ne hxo] at hx' ⊢
      exact h.anons x Y hx'
  case sharedPages => exact h.sharedPages
  case next => rfl

theorem Sim.newAnon (h : Sim s v T R A) (flags : PageFlags) (zero : Bool) :
    Sim (s.newAnon flags zero).2 (v.newAnon flags zero) T R (A + tally (some s.next)) := by
  have hset := h.setAnon (h.accounted.newAnon flags zero) ⟨flags, zero, none⟩
    (by rw [h.next]; omega)
    (by
      intro Y hY
      rw [← Option.some.inj hY]
      exact ⟨rfl, rfl, rfl⟩)
  have hv : v.newAnon flags zero
      = { v with anons := update v.anons s.next ⟨flags, zero, none⟩, next := s.next + 1 } := by
    unfold Space.newAnon
    rw [h.next]
  rw [hv]
  exact hset

theorem Sim.setAnonPage (h : Sim s v T R A) {o : AnonPtr} {O : SharedAnonymousPage}
    (ho : s.anons o = some O) (d : PagePtr) :
    Sim (s.setAnonPage o d) (v.setAnonPage o d) (T + tally O.page - tally (some d)) R A := by
  have hold := h.anons o O ho
  have hset := h.setAnon (n := s.next) (h.accounted.setAnonPage ho d)
    { v.anons o with page := some d } (Nat.le_of_eq h.next)
    (by
      intro Y hY
      rw [ho] at hY
      rw [← Option.some.inj hY]
      exact ⟨hold.1, hold.2.1, rfl⟩)
  have hv : v.setAnonPage o d = { v with
      anons := update v.anons o { v.anons o with page := some d }, next := s.next } := by
    rw [← h.next]
    rfl
  rw [hv]
  exact hset

/-- Only the pointers to the entry change. -/
theorem Sim.recountAnon (h : Sim s v T R A) {o : AnonPtr} {O : Option SharedAnonymousPage}
    (hacc : Accounted (s.setAnon o O) T' R' A')
    (hO : ∀ Y, O = some Y → ∃ X, s.anons o = some X ∧ X.flags = Y.flags ∧ X.zero = Y.zero
      ∧ X.page = Y.page) : Sim (s.setAnon o O) v T' R' A' := by
  have hset := h.setAnon (n := s.next) hacc (v.anons o) (Nat.le_of_eq h.next)
    (by
      intro Y hY
      obtain ⟨X, hX, hflags, hzero, hpage⟩ := hO Y hY
      have hold := h.anons o X hX
      rw [hold.1, hold.2.1, hold.2.2]
      exact ⟨hflags, hzero, hpage⟩)
  rw [update_eq_self] at hset
  have hv : v = { v with next := s.next } := by rw [← h.next]
  rw [hv]
  exact hset

theorem Sim.refAnon (h : Sim s v T R A) {o : AnonPtr} {O : SharedAnonymousPage}
    (ho : s.anons o = some O) : Sim (s.refAnon o) v T R (A + tally (some o)) := by
  apply h.recountAnon (h.accounted.refAnon ho)
  intro Y hY
  rw [ho] at hY
  rw [← Option.some.inj hY]
  exact ⟨O, ho, rfl, rfl, rfl⟩

/-- The state after the last pointer to a shared anonymous entry has gone, and
after an earlier one. -/
theorem dropAnon_cases (s : Kernel) (o : AnonPtr) :
    (∃ O, s.dropAnon o = s.setAnon o O
      ∧ ∀ Y, O = some Y → ∃ X, s.anons o = some X ∧ X.flags = Y.flags ∧ X.zero = Y.zero
        ∧ X.page = Y.page)
    ∨ ∃ d, s.dropAnon o = (s.setAnon o none).destroyPage d := by
  unfold Kernel.dropAnon
  split
  · dsimp only
    cases (s.anon o).page with
    | none =>
        left
        exact ⟨none, rfl, fun Y hY => by cases hY⟩
    | some d =>
        right
        exact ⟨d, rfl⟩
  · left
    refine ⟨_, rfl, ?_⟩
    intro Y hY
    cases ho : s.anons o with
    | none => rw [ho] at hY; cases hY
    | some X =>
        rw [ho] at hY
        rw [← Option.some.inj hY]
        exact ⟨X, rfl, rfl, rfl, rfl⟩

theorem Sim.dropAnon (h : Sim s v T R A) (hT : ∀ d, 0 ≤ T d) {o : AnonPtr}
    (hpos : 0 < (refs (sharers s.maps) o : Int) + A o) :
    Sim (s.dropAnon o) v T R (A - tally (some o)) := by
  have hacc := h.accounted.dropAnon hT hpos
  obtain ⟨O, hO, hkeep⟩ | ⟨d, hd⟩ := dropAnon_cases s o
  · rw [hO] at hacc ⊢
    exact h.recountAnon hacc hkeep
  · rw [hd] at hacc ⊢
    have hframe := destroyPage_frame (s.setAnon o none) d
    constructor
    case accounted => exact hacc
    case maps =>
      rw [destroyPage_maps]
      exact h.maps
    case table =>
      intro p a
      rw [hframe.1]
      exact h.table p a
    case tableLt => exact h.tableLt
    case status =>
      unfold Kernel.status
      rw [hframe.1]
      exact h.status
    case absent => exact h.absent
    case pages =>
      intro x X hx
      obtain ⟨Y, hY, haddr, hflags, hcow, -⟩ := destroyPage_pages hx
      rw [← haddr, ← hflags, ← hcow]
      exact h.pages x Y hY
    case contents =>
      intro x X hx hne
      obtain ⟨Y, hY, haddr, -, -, -⟩ := destroyPage_pages hx
      rw [hframe.2.2.2.1, ← haddr]
      exact h.contents x Y hY (haddr ▸ hne)
    case anons =>
      intro x X hx
      rw [hframe.2.1] at hx
      have hx' : update s.anons o none x = some X := hx
      by_cases hxo : x = o
      · subst hxo
        rw [update_self] at hx'
        cases hx'
      · rw [update_of_ne hxo] at hx'
        exact h.anons x X hx'
    case sharedPages =>
      rw [hframe.2.2.1]
      exact h.sharedPages
    case next =>
      rw [hframe.2.2.2.2]
      exact h.next

end MierOS.Tasking
