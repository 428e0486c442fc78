/-
  MierOS.Tasking.FileIsolation
  **PRIVATE FILE MAPPINGS AND THE PAGE CACHE**, for runs of `file_pages`, page
  faults, writes through private mappings and unmappings.

  `fileContents hist p a` is what a file mapping should show: the page of the
  file at the mapping's own offset, and what was written through this very
  mapping.  Three branches of `handle_page_fault` can make it show more.

  * `FILE`, with a cached page nobody maps: a private mapping gets the page
    writable, and it stays in the cache;
  * `FILE_MEMORY`, taking a page over: it is looked up in the cache under the
    offset inside the mapping, not under the offset in the file;
  * `FILE_MEMORY`, copying: the bytes are those of page 0 of the process.

  `private_file_mappings_isolated`: in every run that keeps clear of the three
  (`Isolates`), every mapping shows its `fileContents`, and a page leaves the
  cache only from the offset of the mapping that takes it over.
-/
import MierOS.Tasking.Replay

namespace MierOS.Tasking

open Memory.Virtual
open Lib.Refs
open Lib (Run GuardedRun)

variable {s s' : Kernel} {v v' w : Space} {p a q b : Nat} {m : Machine} {hist : List Event}

/-! ## §1. The specification. -/

/-- The `FilePage` that the last `file_pages` put at page `a`, as long as
nothing else was put there. -/
def fileOrigin : List Event → Nat → Nat → Option FilePage
  | [], _, _ => none
  | .filePages q b n file offset shared write execute :: hist, p, a =>
      if q = p ∧ a ∈ Kernel.pagesOf b n then some ⟨file, b, offset, shared, write, execute⟩
      else fileOrigin hist p a
  | .allocPages q b n _ _ :: hist, p, a =>
      if q = p ∧ a ∈ Kernel.pagesOf b n then none else fileOrigin hist p a
  | .nullPages q b n :: hist, p, a =>
      if q = p ∧ a ∈ Kernel.pagesOf b n then none else fileOrigin hist p a
  | .unmapPages q b n :: hist, p, a =>
      if q = p ∧ a ∈ Kernel.pagesOf b n then none else fileOrigin hist p a
  | .fork q child _ :: hist, p, a => fileOrigin hist (if p = child then q else p) a
  | .userWrite _ _ _ _ :: hist, p, a => fileOrigin hist p a
  | .userRead _ _ _ _ :: hist, p, a => fileOrigin hist p a
  | .pageFault _ _ _ _ :: hist, p, a => fileOrigin hist p a

/-- **What a file mapping should show**: its page of the file, with the bytes
written through the mapping itself. -/
def fileContents (m : Machine) : List Event → Nat → Nat → Option Bytes
  | [], _, _ => none
  | .filePages q b n file offset shared write execute :: hist, p, a =>
      if q = p ∧ a ∈ Kernel.pagesOf b n then
        m.readFile file (Space.fileOffset ⟨file, b, offset, shared, write, execute⟩ a)
      else fileContents m hist p a
  | .allocPages q b n _ _ :: hist, p, a =>
      if q = p ∧ a ∈ Kernel.pagesOf b n then none else fileContents m hist p a
  | .nullPages q b n :: hist, p, a =>
      if q = p ∧ a ∈ Kernel.pagesOf b n then none else fileContents m hist p a
  | .unmapPages q b n :: hist, p, a =>
      if q = p ∧ a ∈ Kernel.pagesOf b n then none else fileContents m hist p a
  | .fork q child _ :: hist, p, a => fileContents m hist (if p = child then q else p) a
  | .userWrite q b o x :: hist, p, a =>
      if q = p ∧ b = a then (fileContents m hist p a).map fun bytes => Function.update bytes o x
      else fileContents m hist p a
  | .userRead _ _ _ _ :: hist, p, a => fileContents m hist p a
  | .pageFault _ _ _ _ :: hist, p, a => fileContents m hist p a

/-- The events the property is about: file mappings, unmappings, page faults,
reads, and writes through private mappings. -/
def Event.OnFiles (hist : List Event) : Event → Prop
  | .filePages _ _ _ _ _ _ _ _ => True
  | .unmapPages _ _ _ => True
  | .pageFault _ _ _ _ => True
  | .userRead _ _ _ _ => True
  | .userWrite p a _ _ => ∃ f, fileOrigin hist p a = some f ∧ f.shared = false
  | _ => False

/-- **The condition on a page fault**, on the state before it.

  • A private writable mapping that finds its page in the cache finds it mapped
    by somebody.
  • A copy finds the same bytes at page 0 of the process, and a frame; or page 0
    is not mapped and the process stops.
  • A page that is taken over is in the cache under the offset that is erased,
    or neither this page nor anything under that offset is in the cache. -/
structure Kernel.FaultIsolates (s : Kernel) (hist : List Event) (p a code frame : Nat) : Prop where
  cached : ∀ f d, (s.procs p).memorymap a = some (.file f) → f.shared = false → f.write = true →
    s.sharedPages f.file (Space.fileOffset f a) = some d → (s.page d).addr ≠ 0 →
    (s.page d).refCount ≠ 0
  copied : ∀ f, (s.procs p).memorymap a = some (.fileMemory f false) → code.testBit 1 = true →
    f.copyOnWrite = true → (s.page f.page).refCount > 1 →
    s.load p 0 = none ∨ (frame ≠ 0 ∧ s.load p 0 = s.load p a)
  taken : ∀ f g, (s.procs p).memorymap a = some (.fileMemory f false) → code.testBit 1 = true →
    f.copyOnWrite = true → ¬ (s.page f.page).refCount > 1 → fileOrigin hist p a = some g →
    f.offset = Space.fileOffset g a
      ∨ (s.sharedPages f.file f.offset = none
        ∧ s.sharedPages f.file (Space.fileOffset g a) ≠ some f.page)

/-- The condition on an event: only page faults of user addresses have one. -/
def Isolates (hist : List Event) (s : Kernel) : Event → Prop
  | .pageFault p addr code frame => ¬ (addr ≥ kernelStart ∨ addr = 0) →
      s.FaultIsolates hist p (addr / 2 ^ 12) code frame
  | _ => True

/-! ## §2. The invariant. -/

/-- The page holds its page of the file. -/
def Space.FromFile (m : Machine) (v : Space) (d : PagePtr) : Prop :=
  ∃ file offset, (v.pages d).kind = .file file offset
    ∧ m.readFile file offset = some (v.pages d).bytes

/-- Nobody but slot `(p, a)` has the page. -/
structure Space.Alone (v : Space) (p a : Nat) (d : PagePtr) : Prop where
  cache : ∀ file offset, v.sharedPages file offset ≠ some d
  slots : ∀ q b e, (q, b) ≠ (p, a) → v.maps q b = some e → e.held ≠ some d

/-- **Private mappings are isolated.** -/
structure Isolated (m : Machine) (hist : List Event) (v : Space) : Prop where
  only : ∀ p a e, v.maps p a = some e → (∃ f, e = .file f) ∨ ∃ f shared, e = .fileMemory f shared
  unresolved : ∀ p a f, v.maps p a = some (.file f) → fileOrigin hist p a = some f
    ∧ fileContents m hist p a = m.readFile f.file (Space.fileOffset f a)
  resolved : ∀ p a f shared, v.maps p a = some (.fileMemory f shared) →
    ∃ g, fileOrigin hist p a = some g ∧ g.shared = shared ∧ g.file = f.file
      ∧ (v.pages f.page).kind = .file f.file (Space.fileOffset g a)
  contents : ∀ p a f shared, v.maps p a = some (.fileMemory f shared) →
    (v.pages f.page).addr ≠ 0 ∧ fileContents m hist p a = some (v.pages f.page).bytes
  cache : ∀ file offset d, v.sharedPages file offset = some d → (v.pages d).addr ≠ 0 →
    v.FromFile m d
  /-- **A page that may be written privately is held once, and not cached.** -/
  alone : ∀ p a f, v.maps p a = some (.fileMemory f false) → f.flags.writable = true →
    v.Alone p a f.page
  cow : ∀ p a f shared, v.maps p a = some (.fileMemory f shared) → f.copyOnWrite = true →
    shared = false

/-- A page that is as it was still holds its page of the file. -/
theorem Space.FromFile.of_page {d : PagePtr} (h : v.FromFile m d) (hsame : w.pages d = v.pages d) :
    w.FromFile m d := by
  obtain ⟨file, offset, hkind, hbytes⟩ := h
  refine ⟨file, offset, ?_, ?_⟩
  · rw [hsame]
    exact hkind
  · rw [hsame]
    exact hbytes

theorem isolated_initial (m : Machine) (s : Kernel) : Isolated m [] (Space.initial s) := by
  constructor
  case only => intro p a e he; cases he
  case unresolved => intro p a f he; cases he
  case resolved => intro p a f shared he; cases he
  case contents => intro p a f shared he; cases he
  case cache => intro file offset d hd; cases hd
  case alone => intro p a f he; cases he
  case cow => intro p a f shared he; cases he

/-! ## §3. Mapping, unmapping, reading and writing. -/

/-- A range of pages gets new file mappings, or none. -/
theorem Isolated.range {e : Event} {l : List Nat} (h : Isolated m hist v)
    (hun : Space.Untouched v v')
    (hinside : ∀ q b, q = p ∧ b ∈ l → v'.maps q b = none
      ∨ ∃ f, v'.maps q b = some (.file f) ∧ fileOrigin (e :: hist) q b = some f
        ∧ fileContents m (e :: hist) q b = m.readFile f.file (Space.fileOffset f b))
    (houtside : ∀ q b, ¬ (q = p ∧ b ∈ l) → v'.maps q b = v.maps q b
      ∧ fileOrigin (e :: hist) q b = fileOrigin hist q b
      ∧ fileContents m (e :: hist) q b = fileContents m hist q b) :
    Isolated m (e :: hist) v' := by
  -- a slot that holds a page is outside the range
  have hheld : ∀ q b x, v'.maps q b = some x → (∀ f, x ≠ .file f) → ¬ (q = p ∧ b ∈ l) := by
    intro q b x hx hfile hin
    rcases hinside q b hin with hnone | ⟨f, hf, _⟩
    · rw [hnone] at hx
      cases hx
    · rw [hf] at hx
      exact hfile f (Option.some.inj hx).symm
  -- and then neither its origin nor its contents change
  have hmemory : ∀ q b f shared, v'.maps q b = some (.fileMemory f shared) →
      v.maps q b = some (.fileMemory f shared)
        ∧ fileOrigin (e :: hist) q b = fileOrigin hist q b
        ∧ fileContents m (e :: hist) q b = fileContents m hist q b := by
    intro q b f shared hx
    have hout := houtside q b (hheld q b _ hx (by intro g hg; cases hg))
    rw [hout.1] at hx
    exact ⟨hx, hout.2⟩
  constructor
  case only =>
    intro q b x hx
    by_cases hin : q = p ∧ b ∈ l
    · rcases hinside q b hin with hnone | ⟨f, hf, _⟩
      · rw [hnone] at hx
        cases hx
      · rw [hf] at hx
        exact Or.inl ⟨f, (Option.some.inj hx).symm⟩
    · rw [(houtside q b hin).1] at hx
      exact h.only q b x hx
  case unresolved =>
    intro q b f hf
    by_cases hin : q = p ∧ b ∈ l
    · rcases hinside q b hin with hnone | ⟨g, hg, horigin⟩
      · rw [hnone] at hf
        cases hf
      · rw [hg] at hf
        rw [← MemoryEntry.file.inj (Option.some.inj hf)]
        exact horigin
    · obtain ⟨hmaps, horigin, hcontents⟩ := houtside q b hin
      rw [hmaps] at hf
      rw [horigin, hcontents]
      exact h.unresolved q b f hf
  case resolved =>
    intro q b f shared hf
    obtain ⟨hold, horigin, _⟩ := hmemory q b f shared hf
    rw [horigin, hun.pages]
    exact h.resolved q b f shared hold
  case contents =>
    intro q b f shared hf
    obtain ⟨hold, _, hcontents⟩ := hmemory q b f shared hf
    rw [hcontents, hun.pages]
    exact h.contents q b f shared hold
  case cache =>
    intro file offset d hd haddr
    rw [hun.sharedPages] at hd
    rw [hun.pages] at haddr
    have hfrom := h.cache file offset d hd haddr
    exact hfrom.of_page (by rw [hun.pages])
  case alone =>
    intro q b f hf hw
    have hold := h.alone q b f (hmemory q b f false hf).1 hw
    constructor
    · rw [hun.sharedPages]
      exact hold.cache
    · intro q' b' x hne hx hxd
      have hout := hheld q' b' x hx (by
        intro g hg
        rw [hg] at hxd
        cases hxd)
      rw [(houtside q' b' hout).1] at hx
      exact hold.slots q' b' x hne hx hxd
  case cow =>
    intro q b f shared hf hc
    exact h.cow q b f shared (hmemory q b f shared hf).1 hc

/-- A private mapping whose page may be written is a `FILE_MEMORY` slot that
holds the page writable. -/
theorem Isolated.writable_slot {d : PagePtr} (h : Isolated m hist v) (hv : v.Good)
    (hper : v.Permits p a d true)
    (hpriv : ∃ f, fileOrigin hist p a = some f ∧ f.shared = false) :
    ∃ f, v.maps p a = some (.fileMemory f false) ∧ f.page = d ∧ f.flags.writable = true := by
  obtain ⟨flags, htable, _, hw⟩ := hper
  obtain ⟨e, he, hd⟩ := hv.table_held htable
  rcases h.only p a e he with ⟨f, rfl⟩ | ⟨f, shared, rfl⟩
  · cases hd
  · obtain ⟨g, hg, hshared, _⟩ := h.resolved p a f shared he
    obtain ⟨g', hg', hpriv'⟩ := hpriv
    rw [hg] at hg'
    rw [← Option.some.inj hg', hshared] at hpriv'
    rw [hpriv'] at he
    refine ⟨f, he, Option.some.inj hd, ?_⟩
    -- the page table has the flags of the slot
    have hsame : v.table p a = some (f.page, { f.flags with present := true }) := by
      rw [hv.agrees, he]
      rfl
    rw [htable] at hsame
    have hfl := congrArg (fun te : PagePtr × PageFlags => te.2.writable) (Option.some.inj hsame)
    exact hfl.symm.trans (hw rfl)

/-- **A write through a private mapping** reaches its own page only. -/
theorem Isolated.write {o : Nat} {d : PagePtr} {x : UInt8} (h : Isolated m hist v) (hv : v.Good)
    (hper : v.Permits p a d true)
    (hpriv : ∃ f, fileOrigin hist p a = some f ∧ f.shared = false) :
    Isolated m (.userWrite p a o x :: hist) (v.setByte d o x) := by
  have hpages := Space.setByte_pages v d o x
  obtain ⟨f, hf, hfd, hfw⟩ := h.writable_slot hv hper hpriv
  have halone := h.alone p a f hf hfw
  rw [hfd] at halone
  constructor
  case only => exact h.only
  case unresolved =>
    intro q b g hg
    have hne : ¬ (p = q ∧ a = b) := by
      intro heq
      rw [← heq.1, ← heq.2] at hg
      have hg' : v.maps p a = some (.file g) := hg
      rw [hf] at hg'
      cases hg'
    show fileOrigin hist q b = some g ∧ (if p = q ∧ a = b then _ else fileContents m hist q b) = _
    rw [if_neg hne]
    exact h.unresolved q b g hg
  case resolved =>
    intro q b g shared hg
    obtain ⟨g', horigin, hshared, hfile, hkind⟩ := h.resolved q b g shared hg
    refine ⟨g', horigin, hshared, hfile, ?_⟩
    rw [← hkind, hpages]
    split <;> rfl
  case contents =>
    intro q b g shared hg
    obtain ⟨haddr, hcontents⟩ := h.contents q b g shared hg
    show _ ∧ (if p = q ∧ a = b then _ else fileContents m hist q b) = _
    rw [hpages]
    by_cases heq : p = q ∧ a = b
    · have hgd : g.page = d := by
        rw [← heq.1, ← heq.2] at hg
        have hg' : v.maps p a = some (.fileMemory g shared) := hg
        rw [hf] at hg'
        rw [← (MemoryEntry.fileMemory.inj (Option.some.inj hg')).1]
        exact hfd
      rw [if_pos heq, if_pos hgd, hcontents]
      exact ⟨haddr, rfl⟩
    -- another mapping has another page: this one is held once
    · have hgd : g.page ≠ d := by
        intro hgd
        apply halone.slots q b _ _ hg
        · show some g.page = some d
          rw [hgd]
        · intro hqb
          exact heq ⟨(Prod.mk.inj hqb).1.symm, (Prod.mk.inj hqb).2.symm⟩
      rw [if_neg heq, if_neg hgd]
      exact ⟨haddr, hcontents⟩
  case cache =>
    intro file offset y hy haddr
    have hyd : y ≠ d := fun heq => halone.cache file offset (heq ▸ hy)
    have hsame : (v.setByte d o x).pages y = v.pages y := by
      rw [hpages, if_neg hyd]
    rw [hsame] at haddr
    exact (h.cache file offset y hy haddr).of_page hsame
  case alone =>
    intro q b g hg hgw
    have hold := h.alone q b g hg hgw
    exact ⟨hold.cache, hold.slots⟩
  case cow => exact h.cow

/-! ## §4. Page faults. -/

/-- A fault that places nothing leaves maps and pages; a page without a frame may
have gone into the cache. -/
structure Space.Unplaced (v w : Space) : Prop where
  maps : w.maps = v.maps
  old : ∀ x, x ≠ v.next → w.pages x = v.pages x
  kept : ∀ file offset d, v.sharedPages file offset = some d → w.sharedPages file offset = some d
  cache : ∀ file offset d, w.sharedPages file offset = some d →
    v.sharedPages file offset = some d ∨ d = v.next ∧ (w.pages d).addr = 0

theorem Space.Unplaced.refl (v : Space) : Space.Unplaced v v :=
  ⟨rfl, fun _ _ => rfl, fun _ _ _ hd => hd, fun _ _ _ hd => Or.inl hd⟩

/-- A file page without a frame, cached or not. -/
theorem Space.unplaced_read {f : FilePage} {offset : Nat} {kind : Kind} {flags : PageFlags}
    (hr : Space.Resolved v kind 0 flags w) (hcache : w.sharedPages = v.sharedPages)
    (hnone : v.sharedPages f.file offset = none) :
    Space.Unplaced v (if f.shared then w.setSharedPage f.file offset (some v.next) else w) := by
  by_cases hshared : f.shared = true
  · rw [if_pos hshared]
    refine ⟨hr.maps, hr.old, ?_, ?_⟩
    · intro file o d hd
      rw [Space.sharedPages_setSharedPage, hcache]
      by_cases hat : file = f.file ∧ o = offset
      · rw [hat.1, hat.2, hnone] at hd
        cases hd
      · rw [if_neg hat]
        exact hd
    · intro file o d hd
      rw [Space.sharedPages_setSharedPage, hcache] at hd
      by_cases hat : file = f.file ∧ o = offset
      · rw [if_pos hat] at hd
        have hdn : d = v.next := (Option.some.inj hd).symm
        right
        rw [hdn]
        exact ⟨rfl, hr.addr⟩
      · rw [if_neg hat] at hd
        exact Or.inl hd
  · rw [if_neg hshared]
    refine ⟨hr.maps, hr.old, ?_, ?_⟩
    · intro file o d hd
      rw [hcache]
      exact hd
    · intro file o d hd
      rw [hcache] at hd
      exact Or.inl hd

/-- A `FILE` fault that is refused. -/
theorem Space.fileFault_refused {f : FilePage} {frame : Nat} {mem : Nat → Bytes}
    (hrefused : (v.fileFault m p a frame f mem).1 = .refused) :
    Space.Unplaced v (v.fileFault m p a frame f mem).2 := by
  unfold Space.fileFault Space.resolveMapping at hrefused ⊢
  dsimp only at hrefused ⊢
  cases hc : v.sharedPages f.file ((a - f.startAddr + f.offset) % 2 ^ 52) with
  | some d =>
      rw [hc] at hrefused
      dsimp only at hrefused ⊢
      by_cases haddr : (v.pages d).addr = 0
      · rw [if_pos haddr]
        exact Space.Unplaced.refl v
      · rw [if_neg haddr] at hrefused
        cases hrefused
  | none =>
      rw [hc] at hrefused
      dsimp only at hrefused ⊢
      cases hread : m.readFile f.file ((a - f.startAddr + f.offset) % 2 ^ 52) with
      | none => exact Space.Unplaced.refl v
      | some bytes =>
          rw [hread] at hrefused
          dsimp only at hrefused ⊢
          have hr := ((Space.resolved_bare v
            (.file f.file ((a - f.startAddr + f.offset) % 2 ^ 52)) frame (mem frame)).setFlags
            (.of true true false false true false)).setBytes bytes
          have hcache : (((v.newPage (.file f.file ((a - f.startAddr + f.offset) % 2 ^ 52)) frame
            (mem frame)).setFlags v.next (.of true true false false true false)).setBytes v.next
            bytes).sharedPages = v.sharedPages := rfl
          generalize ((v.newPage (.file f.file ((a - f.startAddr + f.offset) % 2 ^ 52)) frame
            (mem frame)).setFlags v.next (.of true true false false true false)).setBytes v.next
            bytes = v₁ at hr hcache hrefused ⊢
          have haddr : ((if f.shared = true then v₁.setSharedPage f.file
              ((a - f.startAddr + f.offset) % 2 ^ 52) (some v.next) else v₁).pages v.next).addr
              = frame := by
            split
            · exact hr.addr
            · exact hr.addr
          rw [haddr] at hrefused ⊢
          by_cases hframe : frame = 0
          · rw [if_pos hframe]
            rw [hframe] at hr
            exact Space.unplaced_read hr hcache hc
          · rw [if_neg hframe] at hrefused
            cases hrefused

/-- A `FILE_MEMORY` fault that is refused does nothing. -/
theorem Space.fileMemoryFault_refused {f : MemoryFilePage} {shared : Bool} {code frame : Nat}
    {mem : Nat → Bytes} (hrefused : (v.fileMemoryFault p a code frame f shared mem).1 = .refused) :
    (v.fileMemoryFault p a code frame f shared mem).2 = v := by
  unfold Space.fileMemoryFault at hrefused ⊢
  by_cases hw : code.testBit 1 = true ∧ f.copyOnWrite = true
  · rw [if_pos hw] at hrefused
    by_cases hmany : v.readers f.page > 1
    · rw [if_pos hmany] at hrefused
      unfold Space.copyFile at hrefused
      dsimp only at hrefused
      cases htable : (v.newPage (v.pages f.page).kind frame (mem frame)).table p 0 with
      | none =>
          rw [htable] at hrefused
          cases hrefused
      | some te =>
          rw [htable] at hrefused
          cases hrefused
    · rw [if_neg hmany] at hrefused
      cases hrefused
  · rw [if_neg hw]

/-- **A refused fault of a file mapping.** -/
theorem Isolated.refused {addr code frame : Nat} {mem : Nat → Bytes} (h : Isolated m hist v)
    (hrefused : (v.handlePageFault m p addr code frame mem).1 = .refused) :
    Space.Unplaced v (v.handlePageFault m p addr code frame mem).2 := by
  unfold Space.handlePageFault at hrefused ⊢
  by_cases huser : addr ≥ kernelStart ∨ addr = 0
  · rw [if_pos huser]
    exact Space.Unplaced.refl v
  · rw [if_neg huser] at hrefused ⊢
    dsimp only at hrefused ⊢
    cases he : v.maps p (addr / 2 ^ 12) with
    | none => exact Space.Unplaced.refl v
    | some e =>
        rw [he] at hrefused
        rcases h.only p (addr / 2 ^ 12) e he with ⟨f, rfl⟩ | ⟨f, shared, rfl⟩
        · exact Space.fileFault_refused hrefused
        · have hsame : (v.fileMemoryFault p (addr / 2 ^ 12) code frame f shared mem).2 = v :=
            Space.fileMemoryFault_refused hrefused
          show Space.Unplaced v (v.fileMemoryFault p (addr / 2 ^ 12) code frame f shared mem).2
          rw [hsame]
          exact Space.Unplaced.refl v

theorem Isolated.unplaced {e : Event} (h : Isolated m hist v) (hv : v.Good)
    (hw : Space.Unplaced v w)
    (horigin : fileOrigin (e :: hist) = fileOrigin hist)
    (hcontents : fileContents m (e :: hist) = fileContents m hist) : Isolated m (e :: hist) w := by
  -- the pages in use are older than the next one
  have hpage : ∀ q b f shared, v.maps q b = some (.fileMemory f shared) →
      w.pages f.page = v.pages f.page := by
    intro q b f shared hf
    exact hw.old _ (Nat.ne_of_lt (hv.lt hf rfl))
  constructor
  case only =>
    rw [hw.maps]
    exact h.only
  case unresolved =>
    rw [hw.maps, horigin, hcontents]
    exact h.unresolved
  case resolved =>
    rw [hw.maps, horigin]
    intro q b f shared hf
    rw [hpage q b f shared hf]
    exact h.resolved q b f shared hf
  case contents =>
    rw [hw.maps, hcontents]
    intro q b f shared hf
    rw [hpage q b f shared hf]
    exact h.contents q b f shared hf
  case cache =>
    intro file offset d hd haddr
    rcases hw.cache file offset d hd with hold | ⟨_, hzero⟩
    · have hsame : w.pages d = v.pages d :=
        hw.old d (Nat.ne_of_lt (hv.pagesOk.cache file offset d hold).1)
      rw [hsame] at haddr
      exact (h.cache file offset d hold haddr).of_page hsame
    · exact absurd hzero haddr
  case alone =>
    rw [hw.maps]
    intro q b f hf hfw
    have hold := h.alone q b f hf hfw
    constructor
    · intro file offset hd
      rcases hw.cache file offset _ hd with hin | ⟨hnew, _⟩
      · exact hold.cache file offset hin
      · exact Nat.ne_of_lt (hv.lt hf rfl) hnew
    · rw [hw.maps]
      exact hold.slots
  case cow =>
    rw [hw.maps]
    exact h.cow

/-- Every slot holds what it held, but for that of the fault. -/
theorem Space.Replaced.slot {x y : MemoryEntry} {d : PagePtr} {D : PageInfo}
    (hr : Space.Replaced v p a x d D w) {q b : Nat} (hy : w.maps q b = some y) :
    (q = p ∧ b = a ∧ y = x) ∨ ((q, b) ≠ (p, a) ∧ v.maps q b = some y) := by
  rw [hr.maps] at hy
  by_cases hne : (q, b) = (p, a)
  · obtain ⟨rfl, rfl⟩ := Prod.mk.inj hne
    rw [Maps.set_self] at hy
    exact Or.inl ⟨rfl, rfl, (Option.some.inj hy).symm⟩
  · rw [Maps.set_of_ne _ _ hne] at hy
    exact Or.inr ⟨hne, hy⟩

/-- **A fault places a mapping of a file page in its slot.** -/
theorem Isolated.placed {e : Event} {g : MemoryFilePage} {shared : Bool} {D : PageInfo}
    (h : Isolated m hist v) (hr : Space.Replaced v p a (.fileMemory g shared) g.page D w)
    (horigin : fileOrigin (e :: hist) = fileOrigin hist)
    (hcontents : fileContents m (e :: hist) = fileContents m hist)
    -- the page is one that was there, as it was, or a new one
    (hpage : D = v.pages g.page
      ∨ (∀ q b x, v.maps q b = some x → x.held ≠ some g.page)
        ∧ ∀ file offset, v.sharedPages file offset ≠ some g.page)
    (hmapping : ∃ f, fileOrigin hist p a = some f ∧ f.shared = shared ∧ f.file = g.file
      ∧ D.kind = .file g.file (Space.fileOffset f a))
    (hbytes : D.addr ≠ 0 ∧ fileContents m hist p a = some D.bytes)
    (hcache : ∀ file offset d, w.sharedPages file offset = some d →
      v.sharedPages file offset = some d ∨ d = g.page ∧ w.FromFile m d)
    (halone : shared = false → g.flags.writable = true → w.Alone p a g.page)
    (hothers : ∀ q b f, (q, b) ≠ (p, a) → v.maps q b = some (.fileMemory f false) →
      f.flags.writable = true → f.page ≠ g.page)
    (hcow : g.copyOnWrite = true → shared = false) : Isolated m (e :: hist) w := by
  have hpages : ∀ q b f sh, v.maps q b = some (.fileMemory f sh) →
      w.pages f.page = v.pages f.page := by
    intro q b f sh hf
    by_cases hfg : f.page = g.page
    · rw [hfg, hr.page]
      rcases hpage with hsame | ⟨hnew, _⟩
      · exact hsame
      · exact absurd (congrArg some hfg) (hnew q b _ hf)
    · exact hr.old _ hfg
  constructor
  case only =>
    intro q b x hx
    rcases hr.slot hx with ⟨rfl, rfl, rfl⟩ | ⟨-, hold⟩
    · exact Or.inr ⟨g, shared, rfl⟩
    · exact h.only q b x hold
  case unresolved =>
    intro q b f hf
    rcases hr.slot hf with ⟨-, -, heq⟩ | ⟨-, hold⟩
    · cases heq
    · rw [horigin, hcontents]
      exact h.unresolved q b f hold
  case resolved =>
    intro q b f sh hf
    rw [horigin]
    rcases hr.slot hf with ⟨rfl, rfl, heq⟩ | ⟨-, hold⟩
    · obtain ⟨rfl, rfl⟩ := MemoryEntry.fileMemory.inj heq
      rw [hr.page]
      exact hmapping
    · rw [hpages q b f sh hold]
      exact h.resolved q b f sh hold
  case contents =>
    intro q b f sh hf
    rw [hcontents]
    rcases hr.slot hf with ⟨rfl, rfl, heq⟩ | ⟨-, hold⟩
    · obtain ⟨rfl, rfl⟩ := MemoryEntry.fileMemory.inj heq
      rw [hr.page]
      exact hbytes
    · rw [hpages q b f sh hold]
      exact h.contents q b f sh hold
  case cache =>
    intro file offset d hd haddr
    rcases hcache file offset d hd with hold | ⟨_, hfrom⟩
    · have hsame : w.pages d = v.pages d := by
        by_cases hdg : d = g.page
        · rw [hdg, hr.page]
          rcases hpage with hsame | ⟨_, hnew⟩
          · exact hsame
          · rw [hdg] at hold
            exact absurd hold (hnew file offset)
        · exact hr.old d hdg
      rw [hsame] at haddr
      exact (h.cache file offset d hold haddr).of_page hsame
    · exact hfrom
  case alone =>
    intro q b f hf hfw
    rcases hr.slot hf with ⟨rfl, rfl, heq⟩ | ⟨hne, hold⟩
    · obtain ⟨rfl, rfl⟩ := MemoryEntry.fileMemory.inj heq
      exact halone rfl hfw
    · have hfg := hothers q b f hne hold hfw
      have hbefore := h.alone q b f hold hfw
      constructor
      · intro file offset hd
        rcases hcache file offset _ hd with hin | ⟨heq, _⟩
        · exact hbefore.cache file offset hin
        · exact hfg heq
      · intro q' b' x hne' hx hxf
        rcases hr.slot hx with ⟨-, -, rfl⟩ | ⟨-, hold'⟩
        · exact hfg (Option.some.inj hxf).symm
        · exact hbefore.slots q' b' x hne' hold' hxf
  case cow =>
    intro q b f sh hf hc
    rcases hr.slot hf with ⟨rfl, rfl, heq⟩ | ⟨-, hold⟩
    · obtain ⟨rfl, rfl⟩ := MemoryEntry.fileMemory.inj heq
      exact hcow hc
    · exact h.cow q b f sh hold hc

/-! ### The condition, for address spaces. -/

/-- `Kernel.FaultIsolates` without frames and counts. -/
structure Space.FaultIsolates (v : Space) (hist : List Event) (p a code frame : Nat) : Prop where
  cached : ∀ f d, v.maps p a = some (.file f) → f.shared = false → f.write = true →
    v.sharedPages f.file (Space.fileOffset f a) = some d → (v.pages d).addr ≠ 0 → v.readers d ≠ 0
  copied : ∀ f, v.maps p a = some (.fileMemory f false) → code.testBit 1 = true →
    f.copyOnWrite = true → v.readers f.page > 1 → ∀ x flags, v.table p 0 = some (x, flags) →
    frame ≠ 0 ∧ (v.pages x).addr ≠ 0 ∧ (v.pages x).bytes = (v.pages f.page).bytes
  taken : ∀ f g, v.maps p a = some (.fileMemory f false) → code.testBit 1 = true →
    f.copyOnWrite = true → v.readers f.page ≤ 1 → fileOrigin hist p a = some g →
    f.offset = Space.fileOffset g a
      ∨ (v.sharedPages f.file f.offset = none
        ∧ v.sharedPages f.file (Space.fileOffset g a) ≠ some f.page)

/-- What is loaded from a resolved file mapping. -/
theorem Sim.load_file (hsim : Sim s v 0 0 0) (hv : v.Good) (h : Isolated m hist v)
    {f : MemoryFilePage} {shared : Bool} (hf : v.maps p a = some (.fileMemory f shared)) :
    s.load p a = some (v.pages f.page).bytes := by
  have htable : v.table p a = some (f.page, { f.flags with present := true }) := by
    rw [hv.agrees, hf]
    rfl
  have hshows := hsim.shows hv p a _ _ htable (h.contents p a f shared hf).1
  rw [hsim.load_mapped htable, hshows]

theorem Sim.faultIsolates {code frame : Nat} (hsim : Sim s v 0 0 0) (hv : v.Good)
    (h : Isolated m hist v) (hk : s.FaultIsolates hist p a code frame) :
    v.FaultIsolates hist p a code frame := by
  have hmaps : ∀ q b, (s.procs q).memorymap b = v.maps q b := by
    intro q b
    rw [hsim.maps]
    rfl
  have hcount : ∀ f, v.maps p a = some (.fileMemory f false) →
      (s.page f.page).refCount = v.readers f.page := by
    intro f hf
    obtain ⟨D, hD⟩ := hsim.slot_live zero_nonneg hf rfl
    exact hsim.refCount_eq hD
  constructor
  case cached =>
    intro f d hf hshared hwrite hd haddr
    have hd' : s.sharedPages f.file (Space.fileOffset f a) = some d := by
      rw [← hsim.sharedPages]
      exact hd
    obtain ⟨D, hD⟩ := hsim.held_live zero_nonneg
      (i := .cache f.file (Space.fileOffset f a)) hd'
    -- the frame and the count that the kernel reads are those of the space
    have hnot := hk.cached f d (by rw [hmaps]; exact hf) hshared hwrite hd'
    rw [hsim.refCount_eq hD, hsim.addr_eq hD] at hnot
    exact hnot haddr
  case copied =>
    intro f hf hw hcow hmany x flags htable
    obtain ⟨e, he, hx⟩ := hv.table_held htable
    rcases h.only p 0 e he with ⟨g, rfl⟩ | ⟨g, shared, rfl⟩
    · cases hx
    · have hgx : g.page = x := Option.some.inj hx
      have hzero := hsim.load_file hv h he
      have hself := hsim.load_file hv h hf
      rcases hk.copied f (by rw [hmaps]; exact hf) hw hcow (by rw [hcount f hf]; exact hmany)
        with hnone | ⟨hframe, hsame⟩
      · rw [hzero] at hnone
        cases hnone
      · rw [hzero, hself, hgx] at hsame
        rw [← hgx]
        refine ⟨hframe, (h.contents p 0 g shared he).1, ?_⟩
        rw [hgx]
        exact Option.some.inj hsame
  case taken =>
    intro f g hf hw hcow hone horigin
    rw [hsim.sharedPages]
    apply hk.taken f g (by rw [hmaps]; exact hf) hw hcow _ horigin
    rw [hcount f hf]
    omega

/-! ### The outcomes. -/

section Outcomes

variable {code frame : Nat} {e : Event}

theorem Isolated.cached {f : FilePage} {d : PagePtr} (h : Isolated m hist v) (hv : v.Good)
    (hc : v.FaultIsolates hist p a code frame)
    (horigin : fileOrigin (e :: hist) = fileOrigin hist)
    (hcontents : fileContents m (e :: hist) = fileContents m hist)
    (hf : v.maps p a = some (.file f))
    (hd : v.sharedPages f.file (Space.fileOffset f a) = some d) (haddr : (v.pages d).addr ≠ 0)
    (hr : Space.Replaced v p a (.fileMemory (v.resolvedMapping f a d) f.shared) d (v.pages d) w)
    (hrest : Space.Rest v w) : Isolated m (e :: hist) w := by
  have hpage : (v.resolvedMapping f a d).page = d := by
    unfold Space.resolvedMapping
    split <;> rfl
  have hfile : (v.resolvedMapping f a d).file = f.file := by
    unfold Space.resolvedMapping
    split <;> rfl
  have hkind := (hv.pagesOk.cache _ _ d hd).2
  obtain ⟨horig, hbytes⟩ := h.unresolved p a f hf
  have hr' : Space.Replaced v p a (.fileMemory (v.resolvedMapping f a d) f.shared)
      (v.resolvedMapping f a d).page (v.pages d) w := by
    rw [hpage]
    exact hr
  apply h.placed hr' horigin hcontents
  case hpage =>
    left
    rw [hpage]
  case hmapping =>
    refine ⟨f, horig, rfl, hfile.symm, ?_⟩
    rw [hfile]
    exact hkind
  case hbytes =>
    refine ⟨haddr, ?_⟩
    -- what the cache holds was read from the file at this offset
    obtain ⟨file, offset, hkind', hread⟩ := h.cache _ _ d hd haddr
    rw [hkind] at hkind'
    obtain ⟨rfl, rfl⟩ := Kind.file.inj hkind'
    rw [hbytes, hread]
  case hcache =>
    intro file offset x hx
    rw [hrest.sharedPages] at hx
    exact Or.inl hx
  case halone =>
    -- writable at once only if nobody maps the page: excluded
    intro hshared hw
    exfalso
    unfold Space.resolvedMapping at hw
    by_cases hcow : v.readers d ≠ 0 ∧ f.shared = false ∧ f.write = true
    · rw [if_pos hcow] at hw
      cases hw
    · rw [if_neg hcow] at hw
      exact hcow ⟨hc.cached f d hf hshared hw hd haddr, hshared, hw⟩
  case hothers =>
    intro q b g _ hg hgw heq
    rw [hpage] at heq
    exact (h.alone q b g hg hgw).cache _ _ (heq ▸ hd)
  case hcow =>
    intro hcow
    unfold Space.resolvedMapping at hcow
    by_cases hif : v.readers d ≠ 0 ∧ f.shared = false ∧ f.write = true
    · exact hif.2.1
    · rw [if_neg hif] at hcow
      cases hcow

/-- The page that comes to be is nobody's yet. -/
theorem Space.Good.next_new (hv : v.Good) :
    (∀ q b x, v.maps q b = some x → x.held ≠ some v.next)
      ∧ ∀ file offset, v.sharedPages file offset ≠ some v.next := by
  constructor
  · intro q b x hx hxd
    exact Nat.lt_irrefl _ (hv.lt hx hxd)
  · intro file offset hd
    exact Nat.lt_irrefl _ (hv.pagesOk.cache file offset _ hd).1

/-- The page is read from the disk. -/
theorem Isolated.read {f : FilePage} {bytes : Bytes} {flags : PageFlags} (h : Isolated m hist v)
    (hv : v.Good) (horigin : fileOrigin (e :: hist) = fileOrigin hist)
    (hcontents : fileContents m (e :: hist) = fileContents m hist)
    (hf : v.maps p a = some (.file f))
    (hread : m.readFile f.file (Space.fileOffset f a) = some bytes) (hframe : frame ≠ 0)
    (hr : Space.Replaced v p a
      (.fileMemory ⟨f.file, v.next, a - f.startAddr, false, f.flags⟩ f.shared) v.next
      ⟨.file f.file (Space.fileOffset f a), frame, flags, false, bytes⟩ w)
    (hcached : w.sharedPages = (if f.shared then
      (v.setSharedPage f.file (Space.fileOffset f a) (some v.next)).sharedPages
      else v.sharedPages)) : Isolated m (e :: hist) w := by
  obtain ⟨horig, hbytes⟩ := h.unresolved p a f hf
  obtain ⟨hnoslot, hnocache⟩ := hv.next_new
  have hcache : ∀ file offset d, w.sharedPages file offset = some d →
      v.sharedPages file offset = some d ∨ (f.shared = true ∧ d = v.next) := by
    intro file offset d hd
    rw [hcached] at hd
    by_cases hshared : f.shared = true
    · rw [if_pos hshared, Space.sharedPages_setSharedPage] at hd
      by_cases hat : file = f.file ∧ offset = Space.fileOffset f a
      · rw [if_pos hat] at hd
        exact Or.inr ⟨hshared, (Option.some.inj hd).symm⟩
      · rw [if_neg hat] at hd
        exact Or.inl hd
    · rw [if_neg hshared] at hd
      exact Or.inl hd
  apply h.placed hr horigin hcontents
  case hpage => exact Or.inr ⟨hnoslot, hnocache⟩
  case hmapping => exact ⟨f, horig, rfl, rfl, rfl⟩
  case hbytes => exact ⟨hframe, hbytes.trans hread⟩
  case hcache =>
    intro file offset d hd
    rcases hcache file offset d hd with hold | ⟨_, hnew⟩
    · exact Or.inl hold
    · right
      refine ⟨hnew, f.file, Space.fileOffset f a, ?_⟩
      rw [hnew, hr.page]
      exact ⟨rfl, hread⟩
  case halone =>
    intro hshared _
    constructor
    · intro file offset hd
      rcases hcache file offset _ hd with hold | ⟨hpub, _⟩
      · exact hnocache file offset hold
      · rw [hshared] at hpub
        cases hpub
    · intro q b x hne hx
      rw [hr.maps, Maps.set_of_ne _ _ hne] at hx
      exact hnoslot q b x hx
  case hothers =>
    intro q b g _ hg _ heq
    exact hnoslot q b _ hg (congrArg some heq)
  case hcow =>
    intro hcow
    cases hcow

/-- The page is copied, from page 0, which holds the same. -/
theorem Isolated.copied {f : MemoryFilePage} {shared : Bool} {x : PagePtr} {flags : PageFlags}
    {mem : Nat → Bytes} (h : Isolated m hist v) (hv : v.Good) (hshows : v.Shows mem)
    (hc : v.FaultIsolates hist p a code frame)
    (horigin : fileOrigin (e :: hist) = fileOrigin hist)
    (hcontents : fileContents m (e :: hist) = fileContents m hist)
    (hf : v.maps p a = some (.fileMemory f shared)) (hw : code.testBit 1 = true)
    (hcow : f.copyOnWrite = true) (hmany : v.readers f.page > 1)
    (htable : v.table p 0 = some (x, flags))
    (hr : Space.Replaced v p a
      (.fileMemory ⟨f.file, v.next, f.offset, false, { f.flags with writable := true }⟩ shared)
      v.next ⟨(v.pages f.page).kind, frame, defaultFlags, false, mem (v.pages x).addr⟩ w)
    (hrest : Space.Rest v w) : Isolated m (e :: hist) w := by
  have hshared := h.cow p a f shared hf hcow
  subst hshared
  obtain ⟨hframe, hx0, hsame⟩ := hc.copied f hf hw hcow hmany x flags htable
  -- the copy takes the bytes of page 0, which are those of the faulting page
  have hbytes := hshows p 0 x flags htable hx0
  obtain ⟨hnoslot, hnocache⟩ := hv.next_new
  obtain ⟨g, hg, hgshared, hgfile, hkind⟩ := h.resolved p a f false hf
  apply h.placed hr horigin hcontents
  case hpage => exact Or.inr ⟨hnoslot, hnocache⟩
  case hmapping => exact ⟨g, hg, hgshared, hgfile, hkind⟩
  case hbytes =>
    refine ⟨hframe, ?_⟩
    show fileContents m hist p a = some (mem (v.pages x).addr)
    rw [hbytes, hsame]
    exact (h.contents p a f false hf).2
  case hcache =>
    intro file offset d hd
    rw [hrest.sharedPages] at hd
    exact Or.inl hd
  case halone =>
    intro _ _
    constructor
    · rw [hrest.sharedPages]
      exact hnocache
    · intro q b y hne hy
      rw [hr.maps, Maps.set_of_ne _ _ hne] at hy
      exact hnoslot q b y hy
  case hothers =>
    intro q b g' _ hg' _ heq
    exact hnoslot q b _ hg' (congrArg some heq)
  case hcow =>
    intro _
    rfl

theorem Isolated.taken {f : MemoryFilePage} {shared : Bool} (h : Isolated m hist v) (hv : v.Valid)
    (hc : v.FaultIsolates hist p a code frame)
    (horigin : fileOrigin (e :: hist) = fileOrigin hist)
    (hcontents : fileContents m (e :: hist) = fileContents m hist)
    (hf : v.maps p a = some (.fileMemory f shared)) (hw : code.testBit 1 = true)
    (hcow : f.copyOnWrite = true) (hone : v.readers f.page ≤ 1)
    (hr : Space.Replaced v p a
      (.fileMemory ⟨f.file, f.page, f.offset, false, { f.flags with writable := true }⟩ shared)
      f.page (v.pages f.page) w)
    (hcached : w.sharedPages = (v.setSharedPage f.file f.offset none).sharedPages) :
    Isolated m (e :: hist) w := by
  have hshared := h.cow p a f shared hf hcow
  subst hshared
  obtain ⟨g, hg, hgshared, hgfile, hkind⟩ := h.resolved p a f false hf
  -- one reader: no other slot has the page
  have hsingle := Space.unique_of_readers hv.finite hone hf rfl
  have hcache : ∀ file offset d, w.sharedPages file offset = some d →
      v.sharedPages file offset = some d ∧ ¬ (file = f.file ∧ offset = f.offset) := by
    intro file offset d hd
    rw [hcached, Space.sharedPages_setSharedPage] at hd
    by_cases hat : file = f.file ∧ offset = f.offset
    · rw [if_pos hat] at hd
      cases hd
    · rw [if_neg hat] at hd
      exact ⟨hd, hat⟩
  apply h.placed hr horigin hcontents
  case hpage => exact Or.inl rfl
  case hmapping => exact ⟨g, hg, hgshared, hgfile, hkind⟩
  case hbytes => exact h.contents p a f false hf
  case hcache => exact fun file offset d hd => Or.inl (hcache file offset d hd).1
  case halone =>
    intro _ _
    constructor
    · -- the cache had the page under its own offset only
      intro file offset hd
      obtain ⟨hold, hat⟩ := hcache file offset f.page hd
      have hkind' := (hv.pagesOk.cache file offset _ hold).2
      rw [hkind] at hkind'
      obtain ⟨hfile, hoffset⟩ := Kind.file.inj hkind'
      rcases hc.taken f g hf hw hcow hone hg with hsame | ⟨_, hout⟩
      · exact hat ⟨hfile.symm, by rw [hsame, hoffset]⟩
      · apply hout
        rw [hfile, hoffset]
        exact hold
    · intro q b y hne hy
      rw [hr.maps, Maps.set_of_ne _ _ hne] at hy
      exact hsingle q b y hne hy
  case hothers =>
    intro q b g' hne hg' _ heq
    exact hsingle q b _ hne hg' (congrArg some heq)
  case hcow =>
    intro _
    rfl

/-- The copy faults at page 0: the process stops. -/
theorem Space.Resolved.unplaced {kind : Kind} {flags : PageFlags}
    (hr : Space.Resolved v kind frame flags w) (hrest : Space.Rest v w) : Space.Unplaced v w where
  maps := hr.maps
  old := hr.old
  kept := by
    rw [hrest.sharedPages]
    exact fun _ _ _ hd => hd
  cache := by
    rw [hrest.sharedPages]
    exact fun _ _ _ hd => Or.inl hd

end Outcomes

theorem Isolated.setStatus (h : Isolated m hist v) (p : Nat) (status : Status) :
    Isolated m hist (v.setStatus p status) where
  only := h.only
  unresolved := h.unresolved
  resolved := h.resolved
  contents := h.contents
  cache := h.cache
  alone := fun q b f hf hw => ⟨(h.alone q b f hf hw).cache, (h.alone q b f hf hw).slots⟩
  cow := h.cow

/-- The slot of a mapping of memory is not one of a file. -/
theorem Isolated.not_memory {e : MemoryEntry} (h : Isolated m hist v) (he : v.maps p a = some e)
    (hfile : ∀ f, e ≠ .file f) (hmemory : ∀ f shared, e ≠ .fileMemory f shared) : False := by
  rcases h.only p a e he with ⟨f, hf⟩ | ⟨f, shared, hf⟩
  · exact hfile f hf
  · exact hmemory f shared hf

/-- **Every outcome of a fault of the handler**, under the condition. -/
theorem Isolated.fault {e : Event} {code frame : Nat} {mem : Nat → Bytes} {r : FaultResult}
    (h : Isolated m hist v) (hv : v.Valid) (hshows : v.Shows mem)
    (hc : v.FaultIsolates hist p a code frame)
    (horigin : fileOrigin (e :: hist) = fileOrigin hist)
    (hcontents : fileContents m (e :: hist) = fileContents m hist)
    (hf : Space.Fault m v p a code frame mem r w) (hr : r ≠ .refused) :
    Isolated m (e :: hist) w := by
  cases hf with
  | nothing _ => exact h.unplaced hv.toGood (Space.Unplaced.refl v) horigin hcontents
  | failed _ _ _ _ _ _ => exact absurd rfl hr
  | anonymous he _ _ _ _ _ => exact (h.not_memory he (by simp) (by simp)).elim
  | sharedFresh he _ _ _ _ _ _ _ _ => exact (h.not_memory he (by simp) (by simp)).elim
  | sharedAgain he _ _ _ _ _ _ => exact (h.not_memory he (by simp) (by simp)).elim
  | anonymousHalt he _ _ _ _ _ => exact (h.not_memory he (by simp) (by simp)).elim
  | sharedFreshHalt he _ _ _ _ _ _ _ _ => exact (h.not_memory he (by simp) (by simp)).elim
  | sharedAgainHalt he _ _ _ _ _ _ => exact (h.not_memory he (by simp) (by simp)).elim
  | copy he _ _ _ _ _ _ => exact (h.not_memory he (by simp) (by simp)).elim
  | reenable he _ _ _ _ _ _ => exact (h.not_memory he (by simp) (by simp)).elim
  | cached he hd haddr hrep _ hrest =>
      exact h.cached hv.toGood hc horigin hcontents he hd haddr hrep hrest
  | read he _ hread hframe hrep _ _ _ hcached =>
      exact h.read hv.toGood horigin hcontents he hread hframe hrep hcached
  | fileCopy he hw hcow hmany htable hrep _ hrest =>
      exact h.copied hv.toGood hshows hc horigin hcontents he hw hcow hmany htable hrep hrest
  | fileCopyHalt _ _ _ _ _ hres hrest =>
      exact (h.unplaced hv.toGood (hres.unplaced hrest) horigin hcontents).setStatus p _
  | steal he hw hcow hone hrep _ _ _ hcached =>
      exact h.taken hv hc horigin hcontents he hw hcow hone hrep hcached

theorem Space.pageFault_eq (m : Machine) (v : Space) (p addr code frame : Nat)
    (mem : Nat → Bytes) :
    v.pageFault m p addr code frame mem
      = if (v.handlePageFault m p addr code frame mem).1 = .refused
        then (v.handlePageFault m p addr code frame mem).2.setStatus p (.stuck none)
        else (v.handlePageFault m p addr code frame mem).2 := by
  unfold Space.pageFault
  generalize v.handlePageFault m p addr code frame mem = y
  obtain ⟨r, w⟩ := y
  cases r with
  | handled => rfl
  | refused => rfl
  | halted => rfl

/-- **A page fault.** -/
theorem Isolated.pageFault {addr code frame : Nat} {mem : Nat → Bytes} (h : Isolated m hist v)
    (hv : v.Valid) (hshows : v.Shows mem)
    (hc : ¬ (addr ≥ kernelStart ∨ addr = 0) → v.FaultIsolates hist p (addr / 2 ^ 12) code frame) :
    Isolated m (.pageFault p addr code frame :: hist) (v.pageFault m p addr code frame mem) := by
  rw [Space.pageFault_eq]
  by_cases hrefused : (v.handlePageFault m p addr code frame mem).1 = .refused
  · rw [if_pos hrefused]
    exact (h.unplaced hv.toGood (h.refused hrefused) rfl rfl).setStatus p _
  · rw [if_neg hrefused]
    apply h.fault hv hshows _ rfl rfl (Space.handlePageFault_cases m hv.toGood p addr code frame mem)
      hrefused
    apply hc
    intro huser
    apply hrefused
    unfold Space.handlePageFault
    rw [if_pos huser]

/-- **Who removes a page from the cache**: only the fault that takes a page over,
and it erases what is stored under the offset inside the mapping. -/
theorem Space.Fault.removes {code frame file offset : Nat} {mem : Nat → Bytes} {r : FaultResult}
    {d : PagePtr} (hf : Space.Fault m v p a code frame mem r w) (hr : r ≠ .refused)
    (hbefore : v.sharedPages file offset = some d) (hafter : w.sharedPages file offset = none) :
    ∃ f shared, v.maps p a = some (.fileMemory f shared) ∧ code.testBit 1 = true
      ∧ f.copyOnWrite = true ∧ v.readers f.page ≤ 1 ∧ f.file = file ∧ f.offset = offset := by
  -- what keeps the cache keeps the page
  have hsame : w.sharedPages = v.sharedPages → False := by
    intro heq
    rw [heq, hbefore] at hafter
    cases hafter
  cases hf with
  | nothing _ => exact (hsame rfl).elim
  | failed _ _ _ _ _ _ => exact absurd rfl hr
  | anonymous _ _ _ _ _ hrest => exact (hsame hrest.sharedPages).elim
  | sharedFresh _ _ _ _ _ _ _ hcache _ => exact (hsame hcache).elim
  | sharedAgain _ _ _ _ _ _ hrest => exact (hsame hrest.sharedPages).elim
  | anonymousHalt _ _ _ _ _ hrest => exact (hsame hrest.sharedPages).elim
  | sharedFreshHalt _ _ _ _ _ _ _ hcache _ => exact (hsame hcache).elim
  | sharedAgainHalt _ _ _ _ _ _ hrest => exact (hsame hrest.sharedPages).elim
  | cached _ _ _ _ _ hrest => exact (hsame hrest.sharedPages).elim
  | copy _ _ _ _ _ _ hrest => exact (hsame hrest.sharedPages).elim
  | reenable _ _ _ _ _ _ hrest => exact (hsame hrest.sharedPages).elim
  | fileCopy _ _ _ _ _ _ _ hrest => exact (hsame hrest.sharedPages).elim
  | fileCopyHalt _ _ _ _ _ _ hrest => exact (hsame hrest.sharedPages).elim
  | @read f _ _ _ _ _ _ _ _ _ _ _ hcached =>
      -- a page that is read goes into the cache, if anywhere
      exfalso
      rw [hcached] at hafter
      split at hafter
      · rw [Space.sharedPages_setSharedPage] at hafter
        by_cases hat : file = f.file ∧ offset = Space.fileOffset f a
        · rw [if_pos hat] at hafter
          cases hafter
        · rw [if_neg hat, hbefore] at hafter
          cases hafter
      · rw [hbefore] at hafter
        cases hafter
  | @steal f shared _ he hw hcow hone _ _ _ _ hcached =>
      rw [hcached, Space.sharedPages_setSharedPage] at hafter
      by_cases hat : file = f.file ∧ offset = f.offset
      · exact ⟨f, shared, he, hw, hcow, hone, hat.1.symm, hat.2.symm⟩
      · rw [if_neg hat, hbefore] at hafter
        cases hafter

/-- **A page leaves the cache** only when a private mapping takes it over, from
the offset of that mapping. -/
theorem Isolated.removed {addr code frame file offset : Nat} {d : PagePtr} {mem : Nat → Bytes}
    (h : Isolated m hist v) (hv : v.Valid)
    (hc : ¬ (addr ≥ kernelStart ∨ addr = 0) → v.FaultIsolates hist p (addr / 2 ^ 12) code frame)
    (hbefore : v.sharedPages file offset = some d)
    (hafter : (v.pageFault m p addr code frame mem).sharedPages file offset = none) :
    ∃ g, fileOrigin hist p (addr / 2 ^ 12) = some g ∧ g.shared = false ∧ g.file = file
      ∧ Space.fileOffset g (addr / 2 ^ 12) = offset := by
  rw [Space.pageFault_eq] at hafter
  by_cases hrefused : (v.handlePageFault m p addr code frame mem).1 = .refused
  · rw [if_pos hrefused] at hafter
    -- a refused fault keeps what is cached
    have hkept := (h.refused hrefused).kept file offset d hbefore
    have hafter' : (v.handlePageFault m p addr code frame mem).2.sharedPages file offset = none :=
      hafter
    rw [hkept] at hafter'
    cases hafter'
  · rw [if_neg hrefused] at hafter
    have huser : ¬ (addr ≥ kernelStart ∨ addr = 0) := by
      intro huser
      apply hrefused
      unfold Space.handlePageFault
      rw [if_pos huser]
    have hf := Space.handlePageFault_cases m hv.toGood p addr code frame mem
    obtain ⟨f, shared, he, hw, hcow, hone, hfile, hoffset⟩ := hf.removes hrefused hbefore hafter
    have hshared := h.cow p (addr / 2 ^ 12) f shared he hcow
    subst hshared
    obtain ⟨g, hg, hgshared, hgfile, _⟩ := h.resolved p (addr / 2 ^ 12) f false he
    refine ⟨g, hg, hgshared, hgfile.trans hfile, ?_⟩
    cases (hc huser).taken f g he hw hcow hone hg with
    | inl hown => rw [← hown, hoffset]
    | inr hout =>
        -- nothing was stored under the offset that is erased
        rw [hfile, hoffset, hbefore] at hout
        cases hout.1

/-! ## §5. Whole runs. -/

/-- The events of the property that meet the condition. -/
def Isolating (hist : List Event) (s : Kernel) (e : Event) : Prop :=
  e.OnFiles hist ∧ Isolates hist s e

theorem Isolated.step {e : Event} (h : Isolated m hist v) (hsim : Sim s v 0 0 0) (hv : v.Valid)
    (hmeets : Isolating hist s e) (hst : Space.Step m v e v') : Isolated m (e :: hist) v' := by
  cases hst with
  | nullPages _ => exact hmeets.1.elim
  | allocPages _ => exact hmeets.1.elim
  | fork _ _ _ _ => exact hmeets.1.elim
  | @filePages p a n file offset shared write execute _ =>
      obtain ⟨hmaps, hun⟩ := v.filePages_spec p a n file offset shared write execute
      apply h.range hun (p := p) (l := Kernel.pagesOf a n)
      · intro q b hin
        right
        refine ⟨⟨file, a, offset, shared, write, execute⟩, ?_, ?_, ?_⟩
        · rw [hmaps, if_pos hin]
        · exact if_pos ⟨hin.1.symm, hin.2⟩
        · exact if_pos ⟨hin.1.symm, hin.2⟩
      · intro q b hout
        have hout' : ¬ (p = q ∧ b ∈ Kernel.pagesOf a n) := fun hin => hout ⟨hin.1.symm, hin.2⟩
        refine ⟨?_, if_neg hout', if_neg hout'⟩
        rw [hmaps, if_neg hout]
  | @unmapPages p a n _ =>
      obtain ⟨hmaps, hun⟩ := v.unmapPages_spec p a n
      apply h.range hun (p := p) (l := Kernel.pagesOf a n)
      · intro q b hin
        left
        rw [hmaps, if_pos hin]
      · intro q b hout
        have hout' : ¬ (p = q ∧ b ∈ Kernel.pagesOf a n) := fun hin => hout ⟨hin.1.symm, hin.2⟩
        refine ⟨?_, if_neg hout', if_neg hout'⟩
        rw [hmaps, if_neg hout]
  | pageFault _ hshows =>
      apply h.pageFault hv hshows
      intro huser
      exact hsim.faultIsolates hv.toGood h (hmeets.2 huser)
  | userRead _ _ _ =>
      exact ⟨h.only, h.unresolved, h.resolved, h.contents, h.cache, h.alone, h.cow⟩
  | userWrite _ hper => exact h.write hv.toGood hper hmeets.1

theorem run_isolated {s₀ : Kernel} (hinit : Initial s₀)
    (hrun : GuardedRun (Step m) Isolating s₀ hist s) :
    ∃ v, Sim s v 0 0 0 ∧ v.Valid ∧ Isolated m hist v := by
  apply hrun.historyInvariant (fun hist s => ∃ v, Sim s v 0 0 0 ∧ v.Valid ∧ Isolated m hist v)
  · have hsim := initial_sim hinit
    exact ⟨_, hsim, hsim.valid (Space.initial_good s₀), isolated_initial m s₀⟩
  · intro hist s e s' hI hmeets hst
    obtain ⟨v, hsim, hv, h⟩ := hI
    obtain ⟨v', hst', hsim', hv'⟩ := hsim.step hv.toGood hst
    exact ⟨v', hsim', hsim'.valid hv', h.step hsim hv hmeets hst'⟩

/-- **Private file mappings are isolated from the page cache**, in every run
whose steps meet the condition:

  • every resolved mapping shows its page of the file and what was written
    through it, and nothing that was written through another mapping;
  • a step that meets the condition takes a page out of the cache only at the
    file offset of the private mapping that faults. -/
theorem private_file_mappings_isolated {s₀ : Kernel} (hinit : Initial s₀)
    (hrun : GuardedRun (Step m) Isolating s₀ hist s) :
    (∀ q b f shared, (s.procs q).memorymap b = some (.fileMemory f shared) →
      ∃ bytes, s.load q b = some bytes ∧ fileContents m hist q b = some bytes)
    ∧ ∀ e s', Isolating hist s e → Step m s e s' → ∀ file offset d,
      s.sharedPages file offset = some d → s'.sharedPages file offset = none →
      ∃ p addr code frame g, e = .pageFault p addr code frame
        ∧ fileOrigin hist p (addr / 2 ^ 12) = some g ∧ g.shared = false ∧ g.file = file
        ∧ Space.fileOffset g (addr / 2 ^ 12) = offset := by
  obtain ⟨v, hsim, hv, h⟩ := run_isolated hinit hrun
  refine ⟨?_, ?_⟩
  · intro q b f shared hf
    have hf' : v.maps q b = some (.fileMemory f shared) := by
      rw [hsim.maps]
      exact hf
    exact ⟨(v.pages f.page).bytes, hsim.load_file hv.toGood h hf', (h.contents q b f shared hf').2⟩
  · intro e s' hmeets hst file offset d hbefore hafter
    obtain ⟨v', hst', hsim', _⟩ := hsim.step hv.toGood hst
    rw [← hsim.sharedPages] at hbefore
    rw [← hsim'.sharedPages] at hafter
    have hsame : v'.sharedPages = v.sharedPages → False := by
      intro heq
      rw [heq, hbefore] at hafter
      cases hafter
    cases hst' with
    | nullPages _ => exact hmeets.1.elim
    | allocPages _ => exact hmeets.1.elim
    | fork _ _ _ _ => exact hmeets.1.elim
    | @filePages p a n file' offset' shared write execute _ =>
        exact (hsame (v.filePages_spec p a n file' offset' shared write execute).2.sharedPages).elim
    | @unmapPages p a n _ => exact (hsame (v.unmapPages_spec p a n).2.sharedPages).elim
    | userRead _ _ _ => exact (hsame rfl).elim
    | userWrite _ _ => exact (hsame rfl).elim
    | @pageFault p addr code frame mem _ _ =>
        obtain ⟨g, hg⟩ := h.removed hv
          (fun huser => hsim.faultIsolates hv.toGood h (hmeets.2 huser)) hbefore hafter
        exact ⟨p, addr, code, frame, g, rfl, hg⟩

/-! ## §6. Which faults meet the condition. -/

/-- The first touch of a file mapping, unless it is private and writable and
finds a page in the cache that nobody maps. -/
theorem Kernel.FaultIsolates.of_file {code frame : Nat} {f : FilePage}
    (hf : (s.procs p).memorymap a = some (.file f))
    (hok : f.shared = true ∨ f.write = false
      ∨ s.sharedPages f.file (Space.fileOffset f a) = none
      ∨ ∃ d, s.sharedPages f.file (Space.fileOffset f a) = some d ∧ (s.page d).refCount ≠ 0) :
    s.FaultIsolates hist p a code frame := by
  constructor
  case cached =>
    intro g d hg hshared hwrite hd _
    rw [hf] at hg
    rw [← MemoryEntry.file.inj (Option.some.inj hg)] at hshared hwrite hd
    rcases hok with hok | hok | hok | ⟨d', hd', hcount⟩
    · rw [hok] at hshared
      cases hshared
    · rw [hok] at hwrite
      cases hwrite
    · rw [hok] at hd
      cases hd
    · rw [hd'] at hd
      rw [← Option.some.inj hd]
      exact hcount
  case copied =>
    intro g hg
    rw [hf] at hg
    cases hg
  case taken =>
    intro g _ hg
    rw [hf] at hg
    cases hg

/-- Taking over a page of a mapping that starts at the start of its file. -/
theorem Kernel.FaultIsolates.of_taken {code frame : Nat} {f : MemoryFilePage} {g : FilePage}
    (hf : (s.procs p).memorymap a = some (.fileMemory f false))
    (hone : ¬ (s.page f.page).refCount > 1) (hg : fileOrigin hist p a = some g)
    (hoffset : f.offset = Space.fileOffset g a) : s.FaultIsolates hist p a code frame := by
  constructor
  case cached =>
    intro g' _ hg'
    rw [hf] at hg'
    cases hg'
  case copied =>
    intro f' hf' _ _ hmany
    rw [hf] at hf'
    rw [← (MemoryEntry.fileMemory.inj (Option.some.inj hf')).1] at hmany
    exact absurd hmany hone
  case taken =>
    intro f' g' hf' _ _ _ hg'
    rw [hf] at hf'
    rw [hg] at hg'
    rw [← (MemoryEntry.fileMemory.inj (Option.some.inj hf')).1, ← Option.some.inj hg']
    exact Or.inl hoffset

/-- A shared mapping fills the cache, a private one of the same page is mapped
copy on write, the shared one goes, and the private one takes the page over and
writes it. -/
def takesOver : List Event :=
  [.userWrite 0 6 0 42, .pageFault 0 (6 * 2 ^ 12) 3 9, .unmapPages 0 5 1,
    .pageFault 0 (6 * 2 ^ 12) 0 8, .filePages 0 6 1 0 0 false true false,
    .pageFault 0 (5 * 2 ^ 12) 0 7, .filePages 0 5 1 0 0 true true false]

/-- The write shows in the private mapping, as it should. -/
theorem private_file_mappings_isolated_taken_over :
    ∃ bytes, (replay .zeroFile .boot takesOver).load 0 6 = some bytes
      ∧ fileContents .zeroFile takesOver 0 6 = some bytes := by
  have hmeets : ReplayMeets Isolating .zeroFile .boot takesOver := by
    refine ⟨⟨⟨⟨0, 6, 0, false, true, false⟩, by decide, rfl⟩, trivial⟩, ⟨trivial, fun _ => ?_⟩,
      ⟨trivial, trivial⟩, ⟨trivial, fun _ => ?_⟩, ⟨trivial, trivial⟩, ⟨trivial, fun _ => ?_⟩,
      ⟨trivial, trivial⟩, trivial⟩
    · exact .of_taken (f := ⟨0, 0, 0, true, .of true false true false false false⟩)
        (g := ⟨0, 6, 0, false, true, false⟩) (by decide) (by decide) (by decide) (by decide)
    · exact .of_file (f := ⟨0, 6, 0, false, true, false⟩) (by decide)
        (Or.inr (Or.inr (Or.inr ⟨0, by decide, by decide⟩)))
    · exact .of_file (f := ⟨0, 5, 0, true, true, false⟩) (by decide) (Or.inl rfl)
  have hrun := replay_guarded Kernel.boot_initial (by decide) hmeets
  exact (private_file_mappings_isolated Kernel.boot_initial hrun).1 0 6
    ⟨0, 0, 0, false, .of true true true false false false⟩ false (by decide)

/-- A shared mapping fills the cache and goes.  A private mapping of the page is
writable at once, and what it writes is in the cache. -/
def writesCached : List Event :=
  [.pageFault 0 (7 * 2 ^ 12) 0 9, .filePages 0 7 1 0 0 true true false, .userWrite 0 6 0 42,
    .pageFault 0 (6 * 2 ^ 12) 2 8, .filePages 0 6 1 0 0 false true false, .unmapPages 0 5 1,
    .pageFault 0 (5 * 2 ^ 12) 0 7, .filePages 0 5 1 0 0 true true false]

/-- **The next shared mapping shows the private write**: `42` where the file has
`0`. -/
theorem private_write_reaches_cache :
    ¬ ∀ (hist : List Event) (s : Kernel),
      GuardedRun (Step .zeroFile) (fun hist _ e => e.OnFiles hist) .boot hist s →
      ∀ q b f shared, (s.procs q).memorymap b = some (.fileMemory f shared) →
        ∃ bytes, s.load q b = some bytes ∧ fileContents .zeroFile hist q b = some bytes := by
  intro hclaim
  have hmeets : ReplayMeets (fun hist _ e => e.OnFiles hist) .zeroFile .boot writesCached :=
    ⟨trivial, trivial, ⟨⟨0, 6, 0, false, true, false⟩, by decide, rfl⟩, trivial, trivial, trivial,
      trivial, trivial, trivial⟩
  have hrun := replay_guarded Kernel.boot_initial (by decide) hmeets
  obtain ⟨bytes, hload, hcontents⟩ := hclaim _ _ hrun 0 7
    ⟨0, 0, 0, false, .of true true true false false false⟩ true (by decide)
  have hshown : ((replay .zeroFile .boot writesCached).load 0 7).map (fun bytes => bytes 0)
      = some 42 := by
    decide
  have hfile : (fileContents .zeroFile writesCached 0 7).map (fun bytes => bytes 0) = some 0 := by
    decide
  rw [hload] at hshown
  rw [hcontents] at hfile
  have heq : (42 : UInt8) = 0 := (Option.some.inj hshown).symm.trans (Option.some.inj hfile)
  exact absurd heq (by decide)

end MierOS.Tasking
