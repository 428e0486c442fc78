/-
  MierOS.Tasking.Exit
  **WHAT `f_memorymap.clear()` FREES**: the end of a process (`minimize`) and
  `execve`.

  Clearing the map ends every entry, and `~PhysicalPage` gives the frame back
  when the last object goes and the count of mappings is 0.  `unmap_pages`
  takes a `MEMORY` mapping off that count; `clear()` does not, and
  `~MemoryFilePage` does.  So the frames of `FILE_MEMORY` entries come back and
  those of `MEMORY` entries do not (`exit_frees_iff`).

  `leaked` is the number of mappings that were not taken off.  The proof walks
  the memory map with the counts of `Tasking.Counts` off by that much.
-/
import MierOS.Tasking.Replay

namespace MierOS.Tasking

open Memory.Virtual
open Lib.Refs
open Lib (Run)
open Function (update update_of_ne update_self)

variable {s s' : Kernel} {v v' : Space} {p a q b : Nat} {m : Machine}

/-! ## §1. The code. -/

/-- `f_memorymap.clear()`.  `keys` is the order in which the map is walked. -/
def Kernel.clearMemorymap (s : Kernel) (p : Nat) (keys : List Nat) : Kernel :=
  keys.foldl (fun s a => s.eraseEntry p a) s

/-- The memory part of `minimize()`: the map is cleared and the pager deleted. -/
def Kernel.minimize (s : Kernel) (p : Nat) (keys : List Nat) : Kernel :=
  (s.clearMemorymap p keys).setProc p (.ofStatus (.stuck none))

/-- A resolved page leaves the page table. -/
def Kernel.unmapResolved (s : Kernel) (p a : Nat) : Kernel :=
  match (s.procs p).memorymap a with
  | some (.memory _ _) => s.unmap p a
  | some (.fileMemory _ _) => s.unmap p a
  | _ => s

/-- The memory part of `execve()`: resolved pages leave the page table, then the
map is cleared. -/
def Kernel.execve (s : Kernel) (p : Nat) (keys : List Nat) : Kernel :=
  (keys.foldl (fun s a => s.unmapResolved p a) s).clearMemorymap p keys

/-- An entry of process `q` refers to page `d`, or the fault handler the process
is stopped in does. -/
def Kernel.Reaches (s : Kernel) (q : Nat) (d : PagePtr) : Prop :=
  (∃ b e, (s.procs q).memorymap b = some e ∧ (e.held = some d
    ∨ ∃ o O, e = .sharedAnonymous o ∧ s.anons o = some O ∧ O.page = some d))
  ∨ (s.procs q).status = .stuck (some d)

/-! ## §2. Shared anonymous pages have a sharer. -/

/-- A `SharedAnonymousPage` that is alive is counted. -/
def AnonsHeld (s : Kernel) : Prop := ∀ o O, s.anons o = some O → 1 ≤ O.refCount

theorem AnonsHeld.congr (h : AnonsHeld s) (hanons : s'.anons = s.anons) : AnonsHeld s' := by
  intro o O hO
  rw [hanons] at hO
  exact h o O hO

theorem AnonsHeld.setAnon (h : AnonsHeld s) (o : AnonPtr) {X : Option SharedAnonymousPage}
    (hX : ∀ O, X = some O → 1 ≤ O.refCount) : AnonsHeld (s.setAnon o X) := by
  intro y Y hY
  have hY' : update s.anons o X y = some Y := hY
  by_cases hy : y = o
  · rw [hy, update_self] at hY'
    exact hX Y hY'
  · rw [update_of_ne hy] at hY'
    exact h y Y hY'

theorem AnonsHeld.modifyAnon (h : AnonsHeld s) (o : AnonPtr)
    {f : SharedAnonymousPage → SharedAnonymousPage}
    (hf : ∀ O, s.anons o = some O → 1 ≤ (f O).refCount) : AnonsHeld (s.modifyAnon o f) := by
  apply h.setAnon
  intro O hO
  cases hX : s.anons o with
  | none => rw [hX] at hO; cases hO
  | some X =>
      rw [hX] at hO
      rw [← Option.some.inj hO]
      exact hf X hX

theorem AnonsHeld.destroyPage (h : AnonsHeld s) (d : PagePtr) : AnonsHeld (s.destroyPage d) :=
  h.congr (destroyPage_frame s d).2.1

theorem AnonsHeld.refAnon (h : AnonsHeld s) (o : AnonPtr) : AnonsHeld (s.refAnon o) :=
  h.modifyAnon o (fun _ _ => Nat.le_add_left 1 _)

theorem AnonsHeld.dropAnon (h : AnonsHeld s) (o : AnonPtr) : AnonsHeld (s.dropAnon o) := by
  unfold Kernel.dropAnon
  split
  · have hset : AnonsHeld (s.setAnon o none) := h.setAnon o (fun O hO => by cases hO)
    dsimp only
    cases (s.anon o).page with
    | none => exact hset
    | some d => exact hset.destroyPage d
  · rename_i hone
    apply h.modifyAnon
    intro O hO
    have hpos := h o O hO
    have hO' : s.anon o = O := by
      unfold Kernel.anon
      rw [hO]
      rfl
    rw [hO'] at hone
    show 1 ≤ O.refCount - 1
    omega

theorem AnonsHeld.dropEntry (h : AnonsHeld s) (e : MemoryEntry) : AnonsHeld (s.dropEntry e) := by
  cases e with
  | memory d shared => exact h.destroyPage d
  | fileMemory f shared =>
      have hun : AnonsHeld (s.unrefPage f.page) := h.congr rfl
      exact hun.destroyPage f.page
  | sharedAnonymous o => exact h.dropAnon o
  | anonymous flags zero => exact h
  | file f => exact h
  | empty => exact h

theorem AnonsHeld.eraseEntry (h : AnonsHeld s) (p a : Nat) : AnonsHeld (s.eraseEntry p a) := by
  unfold Kernel.eraseEntry
  split
  · exact h
  · have hset : AnonsHeld (s.setEntry p a none) := h.congr rfl
    exact hset.dropEntry _

theorem AnonsHeld.unmapPage (h : AnonsHeld s) (p a : Nat) : AnonsHeld (s.unmapPage p a) := by
  unfold Kernel.unmapPage
  split
  · exact h
  · dsimp only
    apply AnonsHeld.eraseEntry
    split
    · exact h.congr rfl
    · exact h.congr rfl
    · exact h

theorem AnonsHeld.insertEntry (h : AnonsHeld s) (p a : Nat) (e : MemoryEntry) :
    AnonsHeld (s.insertEntry p a e) := by
  unfold Kernel.insertEntry
  split
  · exact (h.refAnon _).congr rfl
  · exact h.congr rfl

theorem AnonsHeld.setPageMapping (h : AnonsHeld s) (p a : Nat) (e : MemoryEntry) :
    AnonsHeld (s.setPageMapping p a e) := by
  unfold Kernel.setPageMapping
  apply AnonsHeld.insertEntry
  split
  · exact h.unmapPage p a
  · exact h

theorem AnonsHeld.mapPage (h : AnonsHeld s) (p a : Nat) (d : PagePtr) (shared : Bool) :
    AnonsHeld (s.mapPage p a d shared) := by
  unfold Kernel.mapPage
  apply AnonsHeld.setPageMapping
  exact h.congr rfl

theorem AnonsHeld.foldl {f : Kernel → Nat → Kernel} (hf : ∀ s x, AnonsHeld s → AnonsHeld (f s x))
    (l : List Nat) : ∀ s, AnonsHeld s → AnonsHeld (l.foldl f s) := by
  induction l with
  | nil =>
      intro s h
      exact h
  | cons x l ih =>
      intro s h
      exact ih _ (hf s x h)

theorem AnonsHeld.allocShared (h : AnonsHeld s) (p x : Nat) (flags : PageFlags) (zero : Bool) :
    AnonsHeld (s.allocShared p x flags zero) := by
  have hnew : AnonsHeld (s.newAnon flags zero).2 := by
    have hset : AnonsHeld (s.setAnon s.next (some ⟨flags, zero, none, 1⟩)) := by
      apply h.setAnon
      intro O hO
      rw [← Option.some.inj hO]
    exact hset.congr rfl
  exact (hnew.setPageMapping p x _).dropAnon _

theorem AnonsHeld.assignAnonPage (h : AnonsHeld s) (o : AnonPtr) (d : PagePtr) :
    AnonsHeld (s.assignAnonPage o d) := by
  have hset : ∀ t : Kernel, AnonsHeld t → AnonsHeld (t.setAnonPage o d) :=
    fun t ht => ht.modifyAnon o fun O hO => ht o O hO
  unfold Kernel.assignAnonPage
  dsimp only
  cases (s.anon o).page with
  | none => exact (hset s h).congr rfl
  | some x => exact (hset _ (h.destroyPage x)).congr rfl

theorem AnonsHeld.resolveAnonymous (h : AnonsHeld s) (flags : PageFlags) (zero : Bool)
    (frame : Nat) : AnonsHeld (s.resolveAnonymous flags zero frame).2 := by
  unfold Kernel.resolveAnonymous
  dsimp only
  split
  · exact h.congr rfl
  · exact h.congr rfl

theorem AnonsHeld.resolveShared (h : AnonsHeld s) (o : AnonPtr) (frame : Nat) :
    AnonsHeld (s.resolveShared o frame).2 := by
  unfold Kernel.resolveShared
  dsimp only
  split
  · have hfresh : AnonsHeld (s.resolveFresh o frame) :=
      ((h.resolveAnonymous _ _ frame).assignAnonPage o _).destroyPage _
    exact hfresh.congr rfl
  · exact h.congr rfl

theorem AnonsHeld.memoryFault (h : AnonsHeld s) (p a code frame : Nat) (d : PagePtr)
    (shared : Bool) : AnonsHeld (s.memoryFault p a code frame d shared).2 := by
  unfold Kernel.memoryFault
  split
  · split
    · unfold Kernel.copyMemory
      dsimp only
      split
      · exact h.congr rfl
      · apply AnonsHeld.destroyPage
        apply AnonsHeld.congr _ rfl
        apply AnonsHeld.destroyPage
        exact h.congr rfl
    · exact h.congr rfl
  · split
    · exact h
    · exact h

theorem AnonsHeld.anonymousFault (h : AnonsHeld s) (m : Machine) (p a : Nat) (d : PagePtr)
    (shared : Bool) : AnonsHeld (s.anonymousFault m p a d shared).2 := by
  unfold Kernel.anonymousFault
  split
  · exact h.destroyPage d
  · have hmap := h.mapPage p a d shared
    dsimp only
    split
    · rename_i t hstore
      apply AnonsHeld.destroyPage
      apply hmap.congr
      unfold Kernel.store at hstore
      obtain ⟨pte, -, hpte⟩ := Option.bind_eq_some_iff.mp hstore
      split at hpte
      · rw [← Option.some.inj hpte]
        rfl
      · cases hpte
    · exact hmap.congr rfl

theorem AnonsHeld.resolveMapping (h : AnonsHeld s) (m : Machine) (f : FilePage) (a frame : Nat) :
    AnonsHeld (s.resolveMapping m f a frame).2 := by
  unfold Kernel.resolveMapping
  dsimp only
  split
  · exact h.congr rfl
  · split
    · exact h
    · dsimp only
      split
      · exact h.congr rfl
      · exact h.congr rfl

theorem AnonsHeld.fileFault (h : AnonsHeld s) (m : Machine) (p a frame : Nat) (f : FilePage) :
    AnonsHeld (s.fileFault m p a frame f).2 := by
  have hresolve := h.resolveMapping m f a frame
  unfold Kernel.fileFault
  generalize s.resolveMapping m f a frame = r at hresolve
  obtain ⟨d, t⟩ := r
  cases d with
  | none => exact hresolve
  | some d =>
      dsimp only
      split
      · exact hresolve.destroyPage d
      · apply AnonsHeld.destroyPage
        apply AnonsHeld.setPageMapping
        exact hresolve.congr rfl

theorem AnonsHeld.fileMemoryFault (h : AnonsHeld s) (p a code frame : Nat) (f : MemoryFilePage)
    (shared : Bool) : AnonsHeld (s.fileMemoryFault p a code frame f shared).2 := by
  unfold Kernel.fileMemoryFault
  split
  · split
    · unfold Kernel.copyFile
      dsimp only
      split
      · exact h.congr rfl
      · apply AnonsHeld.destroyPage
        apply AnonsHeld.congr _ rfl
        apply AnonsHeld.destroyPage
        exact h.congr rfl
    · have herase : AnonsHeld (s.eraseSharedPage f.file f.offset) := by
        unfold Kernel.eraseSharedPage
        split
        · exact h
        · apply AnonsHeld.destroyPage
          exact h.congr rfl
      exact herase.congr rfl
  · exact h

theorem AnonsHeld.pageFault (h : AnonsHeld s) (m : Machine) (p addr code frame : Nat) :
    AnonsHeld (s.pageFault m p addr code frame) := by
  have hfault : AnonsHeld (s.handlePageFault m p addr code frame).2 := by
    unfold Kernel.handlePageFault
    split
    · exact h
    · dsimp only
      split
      · exact h
      · exact h.memoryFault _ _ _ _ _ _
      · exact h
      · exact (h.resolveAnonymous _ _ frame).anonymousFault m _ _ _ _
      · exact (h.resolveShared _ frame).anonymousFault m _ _ _ _
      · exact h.fileFault m _ _ _ _
      · exact h.fileMemoryFault _ _ _ _ _ _
  unfold Kernel.pageFault
  generalize s.handlePageFault m p addr code frame = x at hfault
  obtain ⟨r, t⟩ := x
  cases r with
  | handled => exact hfault
  | refused => exact hfault.congr rfl
  | halted => exact hfault

theorem AnonsHeld.forkEntry (h : AnonsHeld s) (p child a : Nat) :
    AnonsHeld (s.forkEntry p child a) := by
  unfold Kernel.forkEntry
  split
  · exact h
  · dsimp only
    apply AnonsHeld.mapPage
    split
    · exact h.congr rfl
    · exact h
  · rename_i f shared _
    dsimp only
    have hcopy : AnonsHeld ((if f.flags.writable ∧ shared = false then
        (s.setEntry p a (some (.fileMemory (Kernel.protectFile f shared) shared))).map p a
          (s.page f.page).addr (Kernel.protectFile f shared).flags else s).copyPage f.page) := by
      split
      · exact h.congr rfl
      · exact h.congr rfl
    exact (hcopy.insertEntry child a (.fileMemory (Kernel.protectFile f shared) shared)).congr rfl
  · exact h.insertEntry child a _

theorem AnonsHeld.step (h : AnonsHeld s) {e : Event} (hst : Step m s e s') : AnonsHeld s' := by
  cases hst with
  | nullPages _ => exact AnonsHeld.foldl (fun s x hs => hs.setPageMapping _ x _) _ s h
  | allocPages _ =>
      unfold Kernel.allocPages
      split
      · exact AnonsHeld.foldl (fun s x hs => hs.allocShared _ x _ _) _ s h
      · exact AnonsHeld.foldl (fun s x hs => hs.setPageMapping _ x _) _ s h
  | filePages _ => exact AnonsHeld.foldl (fun s x hs => hs.setPageMapping _ x _) _ s h
  | unmapPages _ => exact AnonsHeld.foldl (fun s x hs => hs.unmapPage _ x) _ s h
  | pageFault _ _ => exact h.pageFault m _ _ _ _
  | fork _ _ _ =>
      apply AnonsHeld.foldl (fun s x hs => hs.forkEntry _ _ x)
      exact h.congr rfl
  | userRead _ _ => exact h
  | userWrite _ _ => exact h

theorem run_anonsHeld {s₀ : Kernel} (hinit : Initial s₀) {hist : List Event}
    (hrun : Run (Step m) s₀ hist s) : AnonsHeld s := by
  apply hrun.invariant AnonsHeld
  · intro o O hO
    rw [hinit.anons] at hO
    cases hO
  · intro s e s' h hst
    exact h.step hst

/-! ## §3. The ledger of one frame. -/

/-- The page is alive and has this frame, which `pfree` has seen `n` times. -/
structure Alive (s : Kernel) (d : PagePtr) (f n : Nat) : Prop where
  page : ∃ D, s.pages d = some D ∧ D.addr = f ∧ 1 ≤ D.objRefCount
  freed : s.freed.count f = n

/-- The page is dead, and nobody else has its frame. -/
structure Gone (s : Kernel) (d : PagePtr) (f n : Nat) : Prop where
  page : s.pages d = none
  frame : ∀ x X, s.pages x = some X → X.addr ≠ f
  freed : s.freed.count f = n

theorem Alive.congr {d : PagePtr} {f n : Nat} (h : Alive s d f n)
    (hpages : ∀ D, s.pages d = some D →
      ∃ E, s'.pages d = some E ∧ E.addr = D.addr ∧ E.objRefCount = D.objRefCount)
    (hfreed : s'.freed = s.freed) : Alive s' d f n := by
  obtain ⟨D, hD, haddr, hpos⟩ := h.page
  obtain ⟨E, hE, haddr', hcount⟩ := hpages D hD
  exact ⟨⟨E, hE, haddr'.trans haddr, hcount ▸ hpos⟩, hfreed ▸ h.freed⟩

theorem Gone.congr {d : PagePtr} {f n : Nat} (h : Gone s d f n)
    (hpages : ∀ x X, s'.pages x = some X → ∃ Y, s.pages x = some Y ∧ Y.addr = X.addr)
    (hfreed : s'.freed = s.freed) : Gone s' d f n := by
  refine ⟨?_, ?_, hfreed ▸ h.freed⟩
  · cases hD : s'.pages d with
    | none => rfl
    | some D =>
        obtain ⟨Y, hY, -⟩ := hpages d D hD
        rw [h.page] at hY
        cases hY
  · intro x X hX
    obtain ⟨Y, hY, haddr⟩ := hpages x X hX
    rw [← haddr]
    exact h.frame x Y hY

theorem freed_destroyPage {x : PagePtr} {X : PageData} (hX : s.pages x = some X) :
    (s.destroyPage x).freed
      = if X.objRefCount = 1 ∧ X.refCount = 0 ∧ X.addr ≠ 0 then X.addr :: s.freed else s.freed := by
  unfold Kernel.destroyPage
  rw [page_eq hX]
  by_cases hone : X.objRefCount = 1
  · rw [if_pos hone]
    by_cases hfree : X.refCount = 0 ∧ X.addr ≠ 0
    · rw [if_pos hfree, if_pos ⟨hone, hfree.1, hfree.2⟩]
      rfl
    · rw [if_neg hfree, if_neg (fun hall => hfree hall.2)]
      rfl
  · rw [if_neg hone, if_neg (fun hall => hone hall.1)]
    rfl

theorem count_destroyPage_of_ne {x : PagePtr} {X : PageData} {f : Nat} (hX : s.pages x = some X)
    (hf : X.addr ≠ f) : (s.destroyPage x).freed.count f = s.freed.count f := by
  rw [freed_destroyPage hX]
  split
  · exact List.count_cons_of_ne hf
  · rfl

theorem Gone.destroyPage {d x : PagePtr} {f n : Nat} (h : Gone s d f n) {X : PageData}
    (hX : s.pages x = some X) : Gone (s.destroyPage x) d f n := by
  have hback : ∀ y Y, (s.destroyPage x).pages y = some Y →
      ∃ Z, s.pages y = some Z ∧ Z.addr = Y.addr := by
    intro y Y hY
    obtain ⟨Z, hZ, haddr, -⟩ := destroyPage_pages hY
    exact ⟨Z, hZ, haddr⟩
  refine ⟨?_, ?_, ?_⟩
  · cases hD : (s.destroyPage x).pages d with
    | none => rfl
    | some D =>
        obtain ⟨Z, hZ, -⟩ := hback d D hD
        rw [h.page] at hZ
        cases hZ
  · intro y Y hY
    obtain ⟨Z, hZ, haddr⟩ := hback y Y hY
    rw [← haddr]
    exact h.frame y Z hZ
  · rw [count_destroyPage_of_ne hX (h.frame x X hX)]
    exact h.freed

/-- **One object of a page ends.**  Of the page itself it is the last one
exactly if it dies, and then its frame is given back unless a mapping is still
counted. -/
theorem Alive.destroyPage {d x : PagePtr} {f n : Nat} {R : PagePtr → Int} {A : AnonPtr → Int}
    (h : Alive s d f n) (hf : f ≠ 0) (hacc : Accounted s (tally (some x)) R A) :
    Alive (s.destroyPage x) d f n ∨ Gone (s.destroyPage x) d f (if R d = 0 then n + 1 else n) := by
  obtain ⟨D, hD, haddr, hpos⟩ := h.page
  by_cases hxd : x = d
  · rw [hxd] at hacc ⊢
    have hobjects := hacc.objects d D hD
    rw [tally_self] at hobjects
    by_cases hone : D.objRefCount = 1
    · right
      -- no holder is left, so no slot holds the page
      have hmapped : refs (mapped s.maps) d = 0 := by
        apply refs_eq_zero
        intro i
        exact ne_of_refs_eq_zero hacc.holderFinite (by omega) (.slot i.1 i.2)
      have hcount := hacc.mappings d D hD
      rw [hmapped] at hcount
      have hdead : (s.destroyPage d).pages d = none := by
        rw [destroyPage_last hD hone]
        exact update_self _ _ _
      refine ⟨hdead, ?_, ?_⟩
      · intro y Y hY hYf
        obtain ⟨Z, hZ, hZaddr, -⟩ := destroyPage_pages hY
        have hyd : y = d := by
          apply hacc.frames y d Z D hZ hD
          · rw [hZaddr, hYf, haddr]
          · rw [hZaddr, hYf]
            exact hf
        rw [hyd, hdead] at hY
        cases hY
      · rw [freed_destroyPage hD, haddr]
        by_cases hR : R d = 0
        · rw [if_pos hR, if_pos ⟨hone, by omega, hf⟩, List.count_cons_self, h.freed]
        · rw [if_neg hR, if_neg (fun hall => hR (by omega)), h.freed]
    · left
      refine ⟨⟨{ D with objRefCount := D.objRefCount - 1 }, ?_, haddr, ?_⟩, ?_⟩
      · rw [destroyPage_more hD hone]
        show update s.pages d ((s.pages d).map _) d = _
        rw [update_self, hD]
        rfl
      · show 1 ≤ D.objRefCount - 1
        omega
      · rw [freed_destroyPage hD, if_neg (fun hall => hone hall.1), h.freed]
  · left
    obtain ⟨X, hX⟩ := hacc.live (d := x) (by
      rw [tally_self]
      omega)
    refine ⟨⟨D, ?_, haddr, hpos⟩, ?_⟩
    · rw [destroyPage_pages_of_ne s (fun hdx => hxd hdx.symm)]
      exact hD
    · rw [count_destroyPage_of_ne hX, h.freed]
      intro hXf
      exact hxd (hacc.frames x d X D hX hD (hXf.trans haddr.symm) (by rw [hXf]; exact hf))

/-! ## §4. Clearing the map. -/

/-- The page of a `MEMORY` entry. -/
def MemoryEntry.memoryPage : MemoryEntry → Option PagePtr
  | .memory d _ => some d
  | _ => none

/-- How many mappings of each page were dropped and are still counted. -/
def leaked (M : Nat → Option MemoryEntry) : List Nat → PagePtr → Int
  | [] => 0
  | a :: done => leaked M done + tally ((M a).bind MemoryEntry.memoryPage)

section Ledger

variable {d : PagePtr} {f n : Nat} {R : PagePtr → Int}

/-- What the end of an entry does to the ledger of a frame. -/
def Settles (s s' : Kernel) (d : PagePtr) (f n : Nat) (R : PagePtr → Int) : Prop :=
  (Alive s d f n → Alive s' d f n ∨ Gone s' d f (if R d = 0 then n + 1 else n))
    ∧ ∀ k, Gone s d f k → Gone s' d f k

/-- No page changes and nothing is freed. -/
theorem settles_of_eq (hpages : s'.pages = s.pages) (hfreed : s'.freed = s.freed) :
    Settles s s' d f n R := by
  constructor
  · intro h
    left
    apply h.congr _ hfreed
    intro D hD
    exact ⟨D, by rw [hpages]; exact hD, rfl, rfl⟩
  · intro k h
    apply h.congr _ hfreed
    intro x X hX
    exact ⟨X, by rw [← hpages]; exact hX, rfl⟩

/-- One object ends, after changes that keep the ledger. -/
theorem settles_destroyPage {t : Kernel} {x : PagePtr} {A : AnonPtr → Int} (hf : f ≠ 0)
    (hacc : Accounted t (tally (some x)) R A)
    (hkeep : ∀ D, s.pages d = some D →
      ∃ E, t.pages d = some E ∧ E.addr = D.addr ∧ E.objRefCount = D.objRefCount)
    (hback : ∀ y Y, t.pages y = some Y → ∃ Z, s.pages y = some Z ∧ Z.addr = Y.addr)
    (hfreed : t.freed = s.freed) : Settles s (t.destroyPage x) d f n R := by
  constructor
  · intro h
    exact (h.congr hkeep hfreed).destroyPage hf hacc
  · intro k h
    obtain ⟨X, hX⟩ := hacc.live (d := x) (by
      rw [tally_self]
      omega)
    exact (h.congr hback hfreed).destroyPage hX

/-- The last pointer to a shared anonymous page, or one of several. -/
theorem settles_dropAnon {o : AnonPtr} {A : AnonPtr → Int} (hf : f ≠ 0)
    (hacc : Accounted s 0 R A) (hpos : 0 < (refs (sharers s.maps) o : Int) + A o) :
    Settles s (s.dropAnon o) d f n R := by
  cases ho : s.anons o with
  | none =>
      have hdead := hacc.deadAnons o ho
      omega
  | some O =>
      have hO : s.anon o = O := by
        unfold Kernel.anon
        rw [ho]
        rfl
      unfold Kernel.dropAnon
      rw [hO]
      by_cases hone : O.refCount = 1
      · rw [if_pos hone]
        have hlast := hacc.lastAnon ho hone
        dsimp only
        cases hd : O.page with
        | none => exact settles_of_eq rfl rfl
        | some x =>
            rw [hd] at hlast
            exact settles_destroyPage hf (hlast.of_eq (zero_add _) rfl rfl)
              (fun D hD => ⟨D, hD, rfl, rfl⟩) (fun y Y hY => ⟨Y, hY, rfl⟩) rfl
      · rw [if_neg hone]
        exact settles_of_eq rfl rfl

/-- A `FILE_MEMORY` entry takes its mapping off the count before its page ends. -/
theorem Sim.eraseFileMemory_settles (h : Sim s v 0 R 0) (habs : v.status p ≠ .absent)
    (hR : ∀ x, 0 ≤ R x) {g : MemoryFilePage} {shared : Bool}
    (he : v.maps p a = some (.fileMemory g shared)) (hf : f ≠ 0) :
    Settles s (s.eraseEntry p a) d f n R := by
  rw [h.eraseEntry_eq he]
  have h₁ := h.writeEntry habs he none
  have hpos : (0 : Int) < (0 : PagePtr → Int) g.page + tally (some g.page) g.page - 0 := by
    rw [tally_self]
    exact Int.one_pos
  obtain ⟨G, hG⟩ := h₁.local_live (d := g.page) hpos
  have hR' := hR g.page
  have h₂ := h₁.unrefPage hG (by
    show (0 : Int) < _ + (R g.page + tally (some g.page) g.page - 0)
    rw [tally_self]
    omega)
  have hacc : Accounted ((s.setEntry p a none).unrefPage g.page) (tally (some g.page)) R 0 :=
    (h₂.of_eq (by simp [MemoryEntry.held]) (by simp [MemoryEntry.held])
      (by simp [MemoryEntry.sharedPtr])).accounted
  refine settles_destroyPage hf hacc ?_ ?_ rfl
  · intro D hD
    by_cases hdg : d = g.page
    · refine ⟨{ D with refCount := D.refCount - 1 }, ?_, rfl, rfl⟩
      show update s.pages g.page ((s.pages g.page).map _) d = _
      rw [hdg, update_self, ← hdg, hD]
      rfl
    · refine ⟨D, ?_, rfl, rfl⟩
      show update s.pages g.page _ d = _
      rw [update_of_ne hdg]
      exact hD
  · intro y Y hY
    obtain ⟨Z, hZ, hY⟩ := modifyPage_pages hY
    refine ⟨Z, hZ, ?_⟩
    rw [hY]
    split <;> rfl

/-- An entry that holds nothing leaves nothing behind. -/
theorem Sim.eraseUnresolved_settles (h : Sim s v 0 R 0) (habs : v.status p ≠ .absent)
    {e : MemoryEntry} (he : v.maps p a = some e) (hheld : e.held = none)
    (hshared : e.sharedPtr = none) :
    Sim (s.eraseEntry p a) (v.setEntry p a none) 0 R 0
      ∧ Settles s (s.eraseEntry p a) d f n R := by
  refine ⟨h.eraseUnresolved habs he hheld hshared, ?_⟩
  rw [h.eraseEntry_eq he]
  cases e with
  | memory x shared => cases hheld
  | fileMemory g shared => cases hheld
  | sharedAnonymous o => cases hshared
  | anonymous flags zero => exact settles_of_eq rfl rfl
  | file g => exact settles_of_eq rfl rfl
  | empty => exact settles_of_eq rfl rfl

/-- **One entry is erased.**  Only the mapping of a `MEMORY` entry stays counted. -/
theorem Sim.eraseEntry_settles (h : Sim s v 0 R 0) (hp : v.status p = .running)
    (hR : ∀ x, 0 ≤ R x) {e : MemoryEntry} (he : v.maps p a = some e) (hf : f ≠ 0) :
    Sim (s.eraseEntry p a) (v.setEntry p a none) 0 (R + tally e.memoryPage) 0
      ∧ Settles s (s.eraseEntry p a) d f n (R + tally e.memoryPage) := by
  have habs := not_absent hp
  have h₁ := h.writeEntry habs he none
  have hnone : R + tally (none : Option PagePtr) = R := by
    funext x
    simp
  cases e with
  | memory x shared =>
      refine ⟨h.eraseMemory habs zero_nonneg he, ?_⟩
      rw [h.eraseEntry_eq he]
      have hacc : Accounted (s.setEntry p a none) (tally (some x)) (R + tally (some x)) 0 :=
        (h₁.of_eq (by simp [MemoryEntry.held]) (by simp [MemoryEntry.held])
          (by simp [MemoryEntry.sharedPtr])).accounted
      exact settles_destroyPage hf hacc (fun D hD => ⟨D, hD, rfl, rfl⟩)
        (fun y Y hY => ⟨Y, hY, rfl⟩) rfl
  | fileMemory g shared =>
      rw [show (MemoryEntry.fileMemory g shared).memoryPage = none from rfl, hnone]
      exact ⟨h.eraseFileMemory habs zero_nonneg hR he, h.eraseFileMemory_settles habs hR he hf⟩
  | sharedAnonymous o =>
      rw [show (MemoryEntry.sharedAnonymous o).memoryPage = none from rfl, hnone]
      refine ⟨h.eraseSharedAnonymous habs zero_nonneg zero_nonneg he, ?_⟩
      rw [h.eraseEntry_eq he]
      have hacc : Accounted (s.setEntry p a none) 0 R (0 + tally (some o)) :=
        (h₁.of_eq (by simp [MemoryEntry.held]) (by simp [MemoryEntry.held])
          (by simp [MemoryEntry.sharedPtr])).accounted
      have hdrop := settles_dropAnon (d := d) (f := f) (n := n) (o := o) hf hacc (by
        rw [zero_add, tally_self]
        omega)
      exact ⟨fun ha => hdrop.1 (ha.congr (fun D hD => ⟨D, hD, rfl, rfl⟩) rfl),
        fun k hg => hdrop.2 k (hg.congr (fun x X hX => ⟨X, hX, rfl⟩) rfl)⟩
  | anonymous flags zero =>
      rw [show (MemoryEntry.anonymous flags zero).memoryPage = none from rfl, hnone]
      exact h.eraseUnresolved_settles habs he rfl rfl
  | file g =>
      rw [show (MemoryEntry.file g).memoryPage = none from rfl, hnone]
      exact h.eraseUnresolved_settles habs he rfl rfl
  | empty =>
      rw [show MemoryEntry.empty.memoryPage = none from rfl, hnone]
      exact h.eraseUnresolved_settles habs he rfl rfl

/-- **The walk over the map**, after `done`: what is left of the map, and the
frame of page `d`, which is given back when the page dies unless a `MEMORY`
entry held it. -/
structure Clearing (v₀ : Space) (p : Nat) (d : PagePtr) (f n : Nat) (leak : Prop)
    [Decidable leak] (done : List Nat) (s : Kernel) (v : Space) : Prop where
  sim : Sim s v 0 (leaked (v₀.maps p) done) 0
  held : AnonsHeld s
  maps : ∀ q b, v.maps q b = if q = p ∧ b ∈ done then none else v₀.maps q b
  rest : v.status = v₀.status ∧ v.anons = v₀.anons ∧ v.sharedPages = v₀.sharedPages
  ledger : Alive s d f n ∨ Gone s d f (if leak then n else n + 1)

theorem leaked_nonneg (M : Nat → Option MemoryEntry) (done : List Nat) (x : PagePtr) :
    0 ≤ leaked M done x := by
  induction done with
  | nil => exact Int.le_refl 0
  | cons a done ih =>
      have hone := tally_nonneg ((M a).bind MemoryEntry.memoryPage) x
      show 0 ≤ leaked M done x + tally ((M a).bind MemoryEntry.memoryPage) x
      omega

/-- A page is leaked exactly if a `MEMORY` entry of it was dropped. -/
theorem leaked_eq_zero (M : Nat → Option MemoryEntry) (done : List Nat) (x : PagePtr) :
    leaked M done x = 0 ↔ ∀ a ∈ done, (M a).bind MemoryEntry.memoryPage ≠ some x := by
  induction done with
  | nil => simp [leaked]
  | cons a done ih =>
      have hnn := leaked_nonneg M done x
      have hone := tally_nonneg ((M a).bind MemoryEntry.memoryPage) x
      have hsum : leaked M (a :: done) x
          = leaked M done x + tally ((M a).bind MemoryEntry.memoryPage) x := rfl
      rw [List.forall_mem_cons, ← ih, hsum]
      by_cases ha : (M a).bind MemoryEntry.memoryPage = some x
      · rw [ha, tally_self]
        constructor
        · intro hzero
          omega
        · intro hall
          exact absurd rfl hall.1
      · have htally : tally ((M a).bind MemoryEntry.memoryPage) x = 0 := by
          unfold tally
          rw [if_neg ha]
        rw [htally]
        constructor
        · intro hzero
          exact ⟨ha, by omega⟩
        · intro hall
          omega

/-- The process, the entry it had and the page. -/
theorem memoryPage_eq_some {M : Nat → Option MemoryEntry} :
    (M a).bind MemoryEntry.memoryPage = some d ↔ ∃ shared, M a = some (.memory d shared) := by
  cases he : M a with
  | none => simp
  | some e =>
      cases e with
      | memory x shared => simp [MemoryEntry.memoryPage]
      | fileMemory g shared => simp [MemoryEntry.memoryPage]
      | anonymous flags zero => simp [MemoryEntry.memoryPage]
      | sharedAnonymous o => simp [MemoryEntry.memoryPage]
      | file g => simp [MemoryEntry.memoryPage]
      | empty => simp [MemoryEntry.memoryPage]

/-- When every `MEMORY` entry of a page has been dropped, the page is leaked if
it had one. -/
theorem leaked_eq_zero_iff {M : Nat → Option MemoryEntry} {done : List Nat} {leak : Prop}
    (hleak : leak ↔ ∃ a shared, M a = some (.memory d shared))
    (hall : ∀ a shared, M a = some (.memory d shared) → a ∈ done) :
    leaked M done d = 0 ↔ ¬ leak := by
  rw [leaked_eq_zero, hleak]
  constructor
  · intro hnone hex
    obtain ⟨a, shared, ha⟩ := hex
    exact hnone a (hall a shared ha) (memoryPage_eq_some.mpr ⟨shared, ha⟩)
  · intro hno a _ ha
    obtain ⟨shared, ha⟩ := memoryPage_eq_some.mp ha
    exact hno ⟨a, shared, ha⟩

theorem Clearing.step {v₀ : Space} {leak : Prop} [Decidable leak]
    (hleak : leak ↔ ∃ a shared, v₀.maps p a = some (.memory d shared)) {done : List Nat}
    (h : Clearing v₀ p d f n leak done s v) (hp : v₀.status p = .running) (hf : f ≠ 0)
    (ha : v₀.maps p a ≠ none) (hnew : a ∉ done) :
    Clearing v₀ p d f n leak (a :: done) (s.eraseEntry p a) (v.setEntry p a none) := by
  obtain ⟨e, he₀⟩ := Option.ne_none_iff_exists'.mp ha
  have he : v.maps p a = some e := by
    rw [h.maps, if_neg (fun hin => hnew hin.2), he₀]
  have hp' : v.status p = .running := by
    rw [h.rest.1]
    exact hp
  obtain ⟨hsim, hsettles⟩ := h.sim.eraseEntry_settles (d := d) (f := f) (n := n) hp'
    (leaked_nonneg _ done) he hf
  have hR : leaked (v₀.maps p) done + tally e.memoryPage = leaked (v₀.maps p) (a :: done) := by
    show _ = leaked (v₀.maps p) done + tally ((v₀.maps p a).bind MemoryEntry.memoryPage)
    rw [he₀]
    rfl
  rw [hR] at hsim hsettles
  have hmaps : ∀ q b, (v.setEntry p a none).maps q b
      = if q = p ∧ b ∈ a :: done then none else v₀.maps q b := by
    intro q b
    show v.maps.set p a none q b = _
    rw [Maps.set_apply, h.maps]
    by_cases hqb : q = p ∧ b = a
    · rw [if_pos hqb, if_pos ⟨hqb.1, by rw [hqb.2]; exact List.mem_cons_self⟩]
    · rw [if_neg hqb]
      by_cases hin : q = p ∧ b ∈ done
      · rw [if_pos hin, if_pos ⟨hin.1, List.mem_cons_of_mem a hin.2⟩]
      · rw [if_neg hin, if_neg]
        intro hcons
        cases List.mem_cons.mp hcons.2 with
        | inl hba => exact hqb ⟨hcons.1, hba⟩
        | inr hdone => exact hin ⟨hcons.1, hdone⟩
  refine ⟨hsim, h.held.eraseEntry p a, hmaps, h.rest, ?_⟩
  cases h.ledger with
  | inr hgone => exact Or.inr (hsettles.2 _ hgone)
  | inl halive =>
      cases hsettles.1 halive with
      | inl halive' => exact Or.inl halive'
      | inr hgone =>
          right
          -- the page is dead, so no slot holds it any more
          have hslots : ∀ b shared, v₀.maps p b = some (.memory d shared) → b ∈ a :: done := by
            intro b shared hb
            by_contra hout
            have hheld : (s.eraseEntry p a).holder (.slot p b) = some d := by
              show ((s.eraseEntry p a).maps p b).bind MemoryEntry.held = some d
              rw [← hsim.maps, hmaps, if_neg (fun hin => hout hin.2), hb]
              rfl
            have hpos := refs_pos hsim.accounted.holderFinite hheld
            have hdead := hsim.accounted.dead d hgone.page
            have hzero : (0 : PagePtr → Int) d = 0 := rfl
            omega
          have hiff : leaked (v₀.maps p) (a :: done) d = 0 ↔ ¬ leak :=
            leaked_eq_zero_iff hleak hslots
          by_cases hl : leak
          · rw [if_pos hl]
            rw [if_neg (fun hz => hiff.mp hz hl)] at hgone
            exact hgone
          · rw [if_neg hl]
            rw [if_pos (hiff.mpr hl)] at hgone
            exact hgone

/-- The whole walk, by induction on the keys that are left. -/
theorem Clearing.foldl {v₀ : Space} {leak : Prop} [Decidable leak]
    (hleak : leak ↔ ∃ a shared, v₀.maps p a = some (.memory d shared))
    (hp : v₀.status p = .running) (hf : f ≠ 0) (keys : List Nat) :
    ∀ done s v, Clearing v₀ p d f n leak done s v → keys.Nodup →
      (∀ a ∈ keys, v₀.maps p a ≠ none ∧ a ∉ done) →
      ∃ v', Clearing v₀ p d f n leak (keys.reverse ++ done) (s.clearMemorymap p keys) v' := by
  induction keys with
  | nil =>
      intro done s v h _ _
      exact ⟨v, h⟩
  | cons a keys ih =>
      intro done s v h hnodup hkeys
      rw [List.nodup_cons] at hnodup
      have ha := hkeys a List.mem_cons_self
      obtain ⟨v', hv'⟩ := ih (a :: done) _ _ (h.step hleak hp hf ha.1 ha.2) hnodup.2 (by
        intro b hb
        have hb' := hkeys b (List.mem_cons_of_mem a hb)
        refine ⟨hb'.1, ?_⟩
        intro hin
        cases List.mem_cons.mp hin with
        | inl hba =>
            rw [hba] at hb
            exact hnodup.1 hb
        | inr hdone => exact hb'.2 hdone)
      refine ⟨v', ?_⟩
      rw [List.reverse_cons, List.append_assoc]
      exact hv'

theorem sharedPtr_eq_some {e : MemoryEntry} {o : AnonPtr} :
    e.sharedPtr = some o ↔ e = .sharedAnonymous o := by
  cases e <;> simp [MemoryEntry.sharedPtr]

/-- A shared anonymous page that is alive has a sharer. -/
theorem AnonsHeld.sharer (hheld : AnonsHeld s) (hacc : Accounted s 0 R 0) {o : AnonPtr}
    {O : SharedAnonymousPage} (hO : s.anons o = some O) :
    ∃ q b, s.maps q b = some (.sharedAnonymous o) := by
  have hcount := hacc.anons o O hO
  have hpos := hheld o O hO
  have hzeroA : (0 : AnonPtr → Int) o = 0 := rfl
  have hsharer : ∃ i, sharers s.maps i = some o := by
    by_contra hno
    have hrefs := refs_eq_zero (f := sharers s.maps) (a := o) (fun i hi => hno ⟨i, hi⟩)
    omega
  obtain ⟨⟨q, b⟩, hqb⟩ := hsharer
  obtain ⟨e, he, hptr⟩ := Option.bind_eq_some_iff.mp hqb
  exact ⟨q, b, by rw [he, sharedPtr_eq_some.mp hptr]⟩

/-- When the whole map of `p` is gone, nobody refers to a page that only `p`
could reach. -/
theorem Clearing.unheld {v₀ : Space} {leak : Prop} [Decidable leak] {done : List Nat}
    (h : Clearing v₀ p d f n leak done s v) (hall : ∀ b, v₀.maps p b ≠ none → b ∈ done)
    (honly : ∀ q b e, q ≠ p → v₀.maps q b = some e →
      e.held ≠ some d ∧ ∀ o, e = .sharedAnonymous o → (v₀.anons o).page ≠ some d)
    (hcache : ∀ file offset, v₀.sharedPages file offset ≠ some d)
    (hhandler : ∀ q, v₀.status q ≠ .stuck (some d)) (i : Holder) :
    s.holder i ≠ some d := by
  -- what is left of the map is of another process, which had it from the start
  have hother : ∀ q b e, s.maps q b = some e → q ≠ p ∧ v₀.maps q b = some e := by
    intro q b e he
    rw [← h.sim.maps, h.maps] at he
    split at he
    · cases he
    · rename_i hout
      refine ⟨?_, he⟩
      intro hq
      apply hout
      refine ⟨hq, hall b ?_⟩
      rw [← hq, he]
      simp
  intro hi
  cases i with
  | slot q b =>
      obtain ⟨e, he, hed⟩ := Option.bind_eq_some_iff.mp
        (show (s.maps q b).bind MemoryEntry.held = some d from hi)
      obtain ⟨hq, he⟩ := hother q b e he
      exact (honly q b e hq he).1 hed
  | anon o =>
      obtain ⟨O, hO, hpage⟩ := Option.bind_eq_some_iff.mp
        (show (s.anons o).bind SharedAnonymousPage.page = some d from hi)
      obtain ⟨q, b, he⟩ := h.held.sharer h.sim.accounted hO
      obtain ⟨hq, he⟩ := hother q b _ he
      apply (honly q b _ hq he).2 o rfl
      rw [← h.rest.2.1, (h.sim.anons o O hO).2.2]
      exact hpage
  | cache file offset =>
      apply hcache file offset
      rw [← h.rest.2.2, h.sim.sharedPages]
      exact hi
  | handler q =>
      have hq : (s.status q).held = some d := hi
      rw [← h.sim.status, h.rest.1] at hq
      apply hhandler q
      cases hst : v₀.status q with
      | absent => rw [hst] at hq; cases hq
      | running => rw [hst] at hq; cases hq
      | stuck held =>
          rw [hst] at hq
          rw [show held = some d from hq]

/-- **What clearing the map of a process frees**, of the pages nobody else
refers to. -/
theorem Sim.clear_frees (h : Sim s v 0 0 0) (hheld : AnonsHeld s) (hp : v.status p = .running)
    {keys : List Nat} (hnodup : keys.Nodup) (hkeys : ∀ a, a ∈ keys ↔ v.maps p a ≠ none)
    {D : PageData} (hD : s.pages d = some D) (haddr : D.addr ≠ 0)
    (hreach : ∃ i, s.holder i = some d)
    (honly : ∀ q b e, q ≠ p → v.maps q b = some e →
      e.held ≠ some d ∧ ∀ o, e = .sharedAnonymous o → (v.anons o).page ≠ some d)
    (hcache : ∀ file offset, v.sharedPages file offset ≠ some d)
    (hhandler : ∀ q, v.status q ≠ .stuck (some d)) {leak : Prop} [Decidable leak]
    (hleak : leak ↔ ∃ a shared, v.maps p a = some (.memory d shared)) :
    (s.clearMemorymap p keys).freed.count D.addr
      = if leak then s.freed.count D.addr else s.freed.count D.addr + 1 := by
  have hzero : (0 : PagePtr → Int) d = 0 := rfl
  have hstart : Clearing v p d D.addr (s.freed.count D.addr) leak [] s v := by
    refine ⟨h, hheld, ?_, ⟨rfl, rfl, rfl⟩, Or.inl ⟨⟨D, hD, rfl, ?_⟩, rfl⟩⟩
    · intro q b
      rw [if_neg (by simp)]
    · obtain ⟨i, hi⟩ := hreach
      have hpos := refs_pos h.accounted.holderFinite hi
      have hcount := h.accounted.objects d D hD
      omega
  obtain ⟨v', hend⟩ := Clearing.foldl hleak hp haddr keys [] s v hstart hnodup
    (fun a ha => ⟨(hkeys a).mp ha, by simp⟩)
  rw [List.append_nil] at hend
  have hnobody := hend.unheld (fun b hb => List.mem_reverse.mpr ((hkeys b).mpr hb)) honly hcache
    hhandler
  -- a page that nobody holds is not alive
  cases hend.ledger with
  | inl halive =>
      obtain ⟨E, hE, -, hpos⟩ := halive.page
      have hcount := hend.sim.accounted.objects d E hE
      rw [refs_eq_zero hnobody] at hcount
      omega
  | inr hgone => exact hgone.freed

end Ledger

/-! ## §5. The end of a process. -/

/-- Only page tables differ. -/
structure SameMemory (s : Kernel) (v : Space) (s' : Kernel) (v' : Space) : Prop where
  pages : s'.pages = s.pages
  freed : s'.freed = s.freed
  anons : s'.anons = s.anons
  holder : s'.holder = s.holder
  maps : v'.maps = v.maps
  status : v'.status = v.status
  infos : v'.anons = v.anons
  sharedPages : v'.sharedPages = v.sharedPages

theorem SameMemory.trans {s'' : Kernel} {v'' : Space} (h : SameMemory s v s' v')
    (h' : SameMemory s' v' s'' v'') : SameMemory s v s'' v'' where
  pages := h'.pages.trans h.pages
  freed := h'.freed.trans h.freed
  anons := h'.anons.trans h.anons
  holder := h'.holder.trans h.holder
  maps := h'.maps.trans h.maps
  status := h'.status.trans h.status
  infos := h'.infos.trans h.infos
  sharedPages := h'.sharedPages.trans h.sharedPages

theorem unmapResolved_cases (s : Kernel) (p a : Nat) :
    s.unmapResolved p a = s ∨ s.unmapResolved p a = s.unmap p a := by
  unfold Kernel.unmapResolved
  split
  · exact Or.inr rfl
  · exact Or.inr rfl
  · exact Or.inl rfl

theorem Sim.unmapResolved (h : Sim s v 0 0 0) (hp : v.status p = .running) (a : Nat) :
    ∃ v', Sim (s.unmapResolved p a) v' 0 0 0 ∧ SameMemory s v (s.unmapResolved p a) v' := by
  cases unmapResolved_cases s p a with
  | inl hskip =>
      rw [hskip]
      exact ⟨v, h, ⟨rfl, rfl, rfl, rfl, rfl, rfl, rfl, rfl⟩⟩
  | inr hunmap =>
      rw [hunmap]
      refine ⟨_, h.unmap (not_absent hp), ⟨rfl, rfl, rfl, ?_, rfl, rfl, rfl, rfl⟩⟩
      exact holder_congr (maps_setPager s p _) (status_setPager s p _) rfl rfl

theorem Sim.unmapAllResolved (keys : List Nat) : ∀ s v, Sim s v 0 0 0 → v.status p = .running →
    ∃ v', Sim (keys.foldl (fun s a => s.unmapResolved p a) s) v' 0 0 0
      ∧ SameMemory s v (keys.foldl (fun s a => s.unmapResolved p a) s) v' := by
  induction keys with
  | nil =>
      intro s v h _
      exact ⟨v, h, ⟨rfl, rfl, rfl, rfl, rfl, rfl, rfl, rfl⟩⟩
  | cons a keys ih =>
      intro s v h hp
      obtain ⟨v', h', hsame⟩ := h.unmapResolved hp a
      obtain ⟨v'', h'', hsame'⟩ := ih _ v' h' (by rw [hsame.status]; exact hp)
      exact ⟨v'', h'', hsame.trans hsame'⟩

/-- A page that a running process refers to is held. -/
theorem holder_of_reaches (hp : (s.procs p).status = .running) {d : PagePtr} (h : s.Reaches p d) :
    ∃ i, s.holder i = some d := by
  rcases h with ⟨b, e, he, hed | ⟨o, O, -, hO, hpage⟩⟩ | hstuck
  · refine ⟨.slot p b, ?_⟩
    show ((s.procs p).memorymap b).bind _ = some d
    rw [he]
    exact hed
  · exact ⟨.anon o, by rw [holder_anon hO, hpage]⟩
  · rw [hp] at hstuck
    cases hstuck

/-- The entries of a process that does not refer to a page do not hold it. -/
theorem Sim.entry_not_held (hsim : Sim s v 0 0 0) {d : PagePtr} (hnot : ¬ s.Reaches q d)
    {e : MemoryEntry} (he : (s.procs q).memorymap b = some e) :
    e.held ≠ some d ∧ ∀ o, e = .sharedAnonymous o → (v.anons o).page ≠ some d := by
  refine ⟨fun hed => hnot (Or.inl ⟨b, e, he, Or.inl hed⟩), fun o heo hpage => hnot ?_⟩
  -- an entry of a shared mapping keeps its object alive
  have hpos := refs_pos hsim.accounted.sharersFinite (i := (q, b)) (a := o) (by
    show ((s.procs q).memorymap b).bind _ = some o
    rw [he, heo]
    rfl)
  have hzero : (0 : AnonPtr → Int) o = 0 := rfl
  obtain ⟨O, hO⟩ := hsim.anon_live (o := o) (by omega)
  exact Or.inl ⟨b, e, he, Or.inr ⟨o, O, heo, hO, by rw [← (hsim.anons o O hO).2.2, hpage]⟩⟩

theorem freed_once_iff {leak : Prop} [Decidable leak] {c n : Nat}
    (hc : c = if leak then n else n + 1) : c = n + 1 ↔ ¬ leak := by
  rw [hc]
  by_cases hleak : leak
  · rw [if_pos hleak]
    exact ⟨fun h => absurd h (by omega), fun h => absurd hleak h⟩
  · rw [if_neg hleak]
    exact ⟨fun _ => hleak, fun _ => rfl⟩

/-- **What the end of a process or `execve` frees.**  In every reachable state,
for every page with a frame that a running process refers to and that no other
process and no vnode cache does: when the process dies or `execve` clears its
memory map, the frame is given to `pfree` once exactly if no `MEMORY` entry of
the process holds the page. -/
theorem exit_frees_iff {s₀ : Kernel} (hinit : Initial s₀) {hist : List Event}
    (hrun : Run (Step m) s₀ hist s) (hp : (s.procs p).status = .running) {keys : List Nat}
    (hkeys : (s.procs p).Enumerates keys) {d : PagePtr} {D : PageData} (hD : s.pages d = some D)
    (haddr : D.addr ≠ 0) (hreach : s.Reaches p d) (honly : ∀ q, q ≠ p → ¬ s.Reaches q d)
    (hcache : ∀ file offset, s.sharedPages file offset ≠ some d) :
    ((s.minimize p keys).freed.count D.addr = s.freed.count D.addr + 1
      ↔ ∀ a shared, (s.procs p).memorymap a ≠ some (.memory d shared))
    ∧ ((s.execve p keys).freed.count D.addr = s.freed.count D.addr + 1
      ↔ ∀ a shared, (s.procs p).memorymap a ≠ some (.memory d shared)) := by
  classical
  obtain ⟨v, hsim, hv⟩ := run_related hinit hrun
  have hheld := run_anonsHeld hinit hrun
  have hp' : v.status p = .running := by
    rw [hsim.status]
    exact hp
  have hmaps : ∀ q b, v.maps q b = (s.procs q).memorymap b := by
    intro q b
    rw [hsim.maps]
    rfl
  have hkeys' : ∀ a, a ∈ keys ↔ v.maps p a ≠ none := by
    intro a
    rw [hmaps]
    exact hkeys.2 a
  have hholder := holder_of_reaches hp hreach
  have honly' : ∀ q b e, q ≠ p → v.maps q b = some e →
      e.held ≠ some d ∧ ∀ o, e = .sharedAnonymous o → (v.anons o).page ≠ some d := by
    intro q b e hq he
    rw [hmaps] at he
    exact hsim.entry_not_held (honly q hq) he
  have hcache' : ∀ file offset, v.sharedPages file offset ≠ some d := by
    intro file offset
    rw [hsim.sharedPages]
    exact hcache file offset
  have hhandler : ∀ q, v.status q ≠ .stuck (some d) := by
    intro q hq
    rw [hsim.status] at hq
    by_cases hqp : q = p
    · rw [hqp, show s.status p = .running from hp] at hq
      cases hq
    · exact honly q hqp (Or.inr hq)
  have hleak : (¬ ∃ a shared, v.maps p a = some (.memory d shared))
      ↔ ∀ a shared, (s.procs p).memorymap a ≠ some (.memory d shared) := by
    simp only [not_exists, hmaps, ne_eq]
  rw [← hleak]
  constructor
  · exact freed_once_iff (hsim.clear_frees hheld hp' hkeys.1 hkeys' hD haddr hholder honly' hcache'
      hhandler Iff.rfl)
  · -- `execve` unmaps the resolved pages first, which changes nothing that matters here
    obtain ⟨v', hsim', hsame⟩ := Sim.unmapAllResolved keys s v hsim hp'
    rw [← hsame.freed]
    apply freed_once_iff
    apply hsim'.clear_frees (hheld.congr hsame.anons) (by rw [hsame.status]; exact hp') hkeys.1
    · intro a
      rw [hsame.maps]
      exact hkeys' a
    · rw [hsame.pages]
      exact hD
    · exact haddr
    · rw [hsame.holder]
      exact hholder
    · rw [hsame.maps, hsame.infos]
      exact honly'
    · rw [hsame.sharedPages]
      exact hcache'
    · rw [hsame.status]
      exact hhandler
    · rw [hsame.maps]

/-- A page of memory is mapped and touched. -/
def touchedPage : List Event := [.pageFault 0 (5 * 2 ^ 12) 2 7, .allocPages 0 5 1 2 3]

/-- A private page of a file is mapped and touched. -/
def touchedFilePage : List Event :=
  [.pageFault 0 (5 * 2 ^ 12) 0 7, .filePages 0 5 1 0 0 false true false]

theorem enumerates_five {proc : Process} (hfive : proc.memorymap 5 ≠ none)
    (hother : ∀ a, proc.memorymap a ≠ none → a ∈ [5]) : proc.Enumerates [5] := by
  refine ⟨by decide, ?_⟩
  intro a
  constructor
  · intro ha
    rw [List.mem_singleton.mp ha]
    exact hfive
  · exact hother a

/-- A process that has not started refers to nothing. -/
theorem boot_not_reaches {d : PagePtr} (hprocs : s.procs q = Kernel.boot.procs q) (hq : q ≠ 0) :
    ¬ s.Reaches q d := by
  intro hreach
  unfold Kernel.Reaches at hreach
  rw [hprocs] at hreach
  cases hreach with
  | inl hentry =>
      obtain ⟨b, e, he, -⟩ := hentry
      cases he
  | inr hstuck =>
      rw [show (Kernel.boot.procs q).status = .absent from if_neg hq] at hstuck
      cases hstuck

/-- Who is not process 0 is not touched by a change to process 0. -/
theorem update_zero_of_ne (g : Nat → Process) (x : Process) (hq : q ≠ 0) :
    update g 0 x q = g q := update_of_ne hq _ _

/-- **A process that touched one page of memory and dies loses its frame**: the
page is its own, and `pfree` is not called. -/
theorem exit_leaks_memory_page :
    Run (Step .noFiles) .boot touchedPage (replay .noFiles .boot touchedPage)
      ∧ ((replay .noFiles .boot touchedPage).procs 0).status = .running
      ∧ ((replay .noFiles .boot touchedPage).procs 0).Enumerates [5]
      ∧ ((replay .noFiles .boot touchedPage).page 0).addr = 7
      ∧ (replay .noFiles .boot touchedPage).Reaches 0 0
      ∧ (∀ q, q ≠ 0 → ¬ (replay .noFiles .boot touchedPage).Reaches q 0)
      ∧ (∀ file offset, (replay .noFiles .boot touchedPage).sharedPages file offset ≠ some 0)
      ∧ ((replay .noFiles .boot touchedPage).minimize 0 [5]).freed = []
      ∧ ((replay .noFiles .boot touchedPage).execve 0 [5]).freed = [] := by
  have hrun : Run (Step .noFiles) .boot touchedPage (replay .noFiles .boot touchedPage) :=
    replay_run Kernel.boot_initial (by decide)
  -- the four changes to process 0: two entries, the page table, the entry again
  have hprocs : ∀ q, q ≠ 0 → (replay .noFiles .boot touchedPage).procs q = Kernel.boot.procs q := by
    intro q hq
    refine (update_zero_of_ne _ _ hq).trans ?_
    refine (update_zero_of_ne _ _ hq).trans ?_
    refine (update_zero_of_ne _ _ hq).trans ?_
    exact (update_zero_of_ne _ _ hq).trans rfl
  refine ⟨hrun, by decide, ?_, by decide, ?_, ?_, ?_, by decide, by decide⟩
  · exact enumerates_five (by decide) (fun a ha => mem_touched Kernel.boot_initial hrun ha)
  · exact Or.inl ⟨5, .memory 0 false, by decide, Or.inl rfl⟩
  · intro q hq
    exact boot_not_reaches (hprocs q hq) hq
  · intro file offset hc
    cases hc

/-- The frame of a file page comes back, when the process dies and on
`execve`. -/
theorem exit_frees_iff_file_page :
    ((replay .zeroFile .boot touchedFilePage).minimize 0 [5]).freed.count 7 = 1
      ∧ ((replay .zeroFile .boot touchedFilePage).execve 0 [5]).freed.count 7 = 1 := by
  have hrun : Run (Step .zeroFile) .boot touchedFilePage (replay .zeroFile .boot touchedFilePage) :=
    replay_run Kernel.boot_initial (by decide)
  have hprocs : ∀ q, q ≠ 0 →
      (replay .zeroFile .boot touchedFilePage).procs q = Kernel.boot.procs q := by
    intro q hq
    refine (update_zero_of_ne _ _ hq).trans ?_
    refine (update_zero_of_ne _ _ hq).trans ?_
    refine (update_zero_of_ne _ _ hq).trans ?_
    exact (update_zero_of_ne _ _ hq).trans rfl
  have hfive : ((replay .zeroFile .boot touchedFilePage).procs 0).memorymap 5
      = some (.fileMemory ⟨0, 0, 0, false, .of true true true false false false⟩ false) := by decide
  have hno : ∀ a shared, ((replay .zeroFile .boot touchedFilePage).procs 0).memorymap a
      ≠ some (.memory 0 shared) := by
    intro a shared ha
    have hin := mem_touched Kernel.boot_initial hrun (a := a) (p := 0) (by rw [ha]; simp)
    rw [List.mem_singleton.mp (show a ∈ [5] from hin), hfive] at ha
    cases ha
  have hiff := exit_frees_iff (d := 0) (D := ⟨7, 1, 1, .of true true false false true false, false⟩)
    Kernel.boot_initial hrun (by decide)
    (enumerates_five (by decide) (fun a ha => mem_touched (p := 0) Kernel.boot_initial hrun ha))
    (by decide) (by decide) (Or.inl ⟨5, _, hfive, Or.inl rfl⟩)
    (fun q hq => boot_not_reaches (hprocs q hq) hq)
    (fun file offset hc => by cases hc)
  exact ⟨hiff.1.mpr hno, hiff.2.mpr hno⟩

end MierOS.Tasking
