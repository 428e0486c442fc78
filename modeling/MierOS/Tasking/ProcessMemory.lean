/-
  MierOS.Tasking.ProcessMemory
  The memory of processes: `kernel/src/tasking/process.cpp`, `fork` of
  `syscalls/process.cpp`, and the page objects of `memory/ppage.cpp` and
  `memory/page/`.

  A process has a memory map (page ↦ `MemoryEntry`) and a page table, which is
  the flat map of `Memory.PagerRun`.  Pages are page numbers and file offsets
  are counted in pages: every caller aligns them.  `PhysicalPage::Data` and
  `SharedAnonymousPage` objects live in a heap, because several entries may
  refer to one; the other entries are never changed through a shared pointer,
  so the map holds them by value.

  A fault that `handle_page_fault` refuses, and a fault inside the handler's
  own `memset` or `memcpy`, stop the process for good (`handle_exception`
  halts); in the second case the handler's locals are never destroyed.
-/
import MierOS.Memory.PagerRun

namespace MierOS.Tasking

open Memory.Virtual
open Memory.Virtual.Paging (PageMap)

/-! ## §1. Data. -/

/-- A pointer to a `PhysicalPage::Data`. -/
abbrev PagePtr := Nat

/-- A pointer to a `SharedAnonymousPage`. -/
abbrev AnonPtr := Nat

/-- The bytes of a page. -/
abbrev Bytes := Nat → UInt8

/-- `PhysicalPage::Data`. The address is a frame number; frame 0 is what
`palloc` returns when it fails. -/
structure PageData where
  addr : Nat
  refCount : Nat
  objRefCount : Nat
  flags : PageFlags
  copyOnWrite : Bool
  deriving Repr, DecidableEq

/-- `PageFlags()`. -/
def defaultFlags : PageFlags := .of true false false false false false

/-- What reading through a dangling pointer yields. -/
def noData : PageData := ⟨0, 0, 0, defaultFlags, false⟩

/-- `SharedAnonymousPage`, with the count of the shared pointer to its
`MemoryEntry`. -/
structure SharedAnonymousPage where
  flags : PageFlags
  zero : Bool
  page : Option PagePtr
  refCount : Nat
  deriving Repr, DecidableEq

def noAnon : SharedAnonymousPage := ⟨defaultFlags, false, none, 0⟩

/-- `FilePage`. -/
structure FilePage where
  file : Nat
  startAddr : Nat
  offset : Nat
  shared : Bool
  write : Bool
  execute : Bool
  deriving Repr, DecidableEq

/-- `FilePage::flags()`. -/
def FilePage.flags (f : FilePage) : PageFlags := .of true f.write true f.execute false false

/-- `MemoryFilePage`. -/
structure MemoryFilePage where
  file : Nat
  page : PagePtr
  offset : Nat
  copyOnWrite : Bool
  flags : PageFlags
  deriving Repr, DecidableEq

/-- `Process::MemoryEntry`: the type, the page and the `shared` field, which is
fixed for the unresolved kinds. -/
inductive MemoryEntry
  | memory (page : PagePtr) (shared : Bool)
  | anonymous (flags : PageFlags) (zero : Bool)
  | sharedAnonymous (page : AnonPtr)
  | file (page : FilePage)
  | fileMemory (page : MemoryFilePage) (shared : Bool)
  | empty
  deriving Repr, DecidableEq

/-- A process that does not exist yet, that runs, or that is stopped in a fault
with the page its handler still holds. -/
inductive Status
  | absent
  | running
  | stuck (held : Option PagePtr)
  deriving Repr, DecidableEq

/-- The fault was handled, refused, or the handler itself faulted. -/
inductive FaultResult
  | handled
  | refused
  | halted
  deriving Repr, DecidableEq

structure Process where
  memorymap : Nat → Option MemoryEntry
  pager : PageMap
  status : Status

/-- A process with nothing mapped. -/
def Process.ofStatus (status : Status) : Process := ⟨fun _ => none, fun _ => none, status⟩

/-- The machine: whether the kernel respects read-only pages (`CR0.WP`), and
what a file holds. -/
structure Machine where
  wp : Bool
  readFile : Nat → Nat → Option Bytes

structure Kernel where
  pages : PagePtr → Option PageData
  anons : AnonPtr → Option SharedAnonymousPage
  procs : Nat → Process
  /-- `f_shared_pages` of every vnode. -/
  sharedPages : Nat → Nat → Option PagePtr
  mem : Nat → Bytes
  used : Nat → Bool
  /-- The frames given to `pfree`, latest first. -/
  freed : List Nat
  /-- The next pointer `new` returns. -/
  next : Nat

namespace Kernel

/-! ## §2. `PhysicalPage`. -/

def page (s : Kernel) (d : PagePtr) : PageData := (s.pages d).getD noData

def anon (s : Kernel) (o : AnonPtr) : SharedAnonymousPage := (s.anons o).getD noAnon

def setPage (s : Kernel) (d : PagePtr) (v : Option PageData) : Kernel :=
  { s with pages := Function.update s.pages d v }

/-- Change a page object in place. -/
def modifyPage (s : Kernel) (d : PagePtr) (f : PageData → PageData) : Kernel :=
  s.setPage d ((s.pages d).map f)

/-- `pfree(frame, 1)`. -/
def pfree (s : Kernel) (frame : Nat) : Kernel :=
  { s with used := Function.update s.used frame false, freed := frame :: s.freed }

/-- `PhysicalPage()`, when `palloc(1)` returns `frame`. -/
def newPage (s : Kernel) (frame : Nat) : PagePtr × Kernel :=
  (s.next,
    { s with
      pages := Function.update s.pages s.next (some ⟨frame, 0, 1, defaultFlags, false⟩)
      used := if frame = 0 then s.used else Function.update s.used frame true
      next := s.next + 1 })

/-- `PhysicalPage(const PhysicalPage&)`. -/
def copyPage (s : Kernel) (d : PagePtr) : Kernel :=
  s.modifyPage d fun D => { D with objRefCount := D.objRefCount + 1 }

/-- `~PhysicalPage()`. -/
def destroyPage (s : Kernel) (d : PagePtr) : Kernel :=
  if (s.page d).objRefCount = 1 then
    let s' := if (s.page d).refCount = 0 ∧ (s.page d).addr ≠ 0 then s.pfree (s.page d).addr else s
    s'.setPage d none
  else s.modifyPage d fun D => { D with objRefCount := D.objRefCount - 1 }

/-- `ref()`. -/
def refPage (s : Kernel) (d : PagePtr) : Kernel :=
  s.modifyPage d fun D => { D with refCount := D.refCount + 1 }

/-- `unref()`. -/
def unrefPage (s : Kernel) (d : PagePtr) : Kernel :=
  s.modifyPage d fun D => { D with refCount := D.refCount - 1 }

/-- `flags() = ...`. -/
def setFlags (s : Kernel) (d : PagePtr) (flags : PageFlags) : Kernel :=
  s.modifyPage d fun D => { D with flags := flags }

/-- `copy_on_write() = ...`. -/
def setCopyOnWrite (s : Kernel) (d : PagePtr) (b : Bool) : Kernel :=
  s.modifyPage d fun D => { D with copyOnWrite := b }

/-! ## §3. Page tables and memory. -/

def setProc (s : Kernel) (p : Nat) (proc : Process) : Kernel :=
  { s with procs := Function.update s.procs p proc }

/-- `f_pager->map(frame, a, 1, flags)`. -/
def map (s : Kernel) (p a frame : Nat) (flags : PageFlags) : Kernel :=
  s.setProc p { s.procs p with pager := (s.procs p).pager.map frame a 1 flags }

/-- `f_pager->unmap(a, 1)`. -/
def unmap (s : Kernel) (p a : Nat) : Kernel :=
  s.setProc p { s.procs p with pager := (s.procs p).pager.unmap a 1 }

/-- Write `f_memorymap[a]`. -/
def setEntry (s : Kernel) (p a : Nat) (e : Option MemoryEntry) : Kernel :=
  s.setProc p { s.procs p with memorymap := Function.update (s.procs p).memorymap a e }

def setFrame (s : Kernel) (frame : Nat) (bytes : Bytes) : Kernel :=
  { s with mem := Function.update s.mem frame bytes }

/-- The bytes the kernel reads at page `a` of process `p`; nothing if the read
faults. -/
def load (s : Kernel) (p a : Nat) : Option Bytes :=
  ((s.procs p).pager a).map fun pte => s.mem pte.1

/-- The kernel writes page `a` of process `p`, unless the write faults. -/
def store (m : Machine) (s : Kernel) (p a : Nat) (bytes : Bytes) : Option Kernel :=
  ((s.procs p).pager a).bind fun pte =>
    if pte.2.writable ∨ m.wp = false then some (s.setFrame pte.1 bytes) else none

/-- The process stops in a fault. -/
def halt (s : Kernel) (p : Nat) (held : Option PagePtr) : Kernel :=
  s.setProc p { s.procs p with status := .stuck held }

/-! ## §4. Entries. -/

def setAnon (s : Kernel) (o : AnonPtr) (v : Option SharedAnonymousPage) : Kernel :=
  { s with anons := Function.update s.anons o v }

/-- Change a shared anonymous page in place. -/
def modifyAnon (s : Kernel) (o : AnonPtr) (f : SharedAnonymousPage → SharedAnonymousPage) :
    Kernel :=
  s.setAnon o ((s.anons o).map f)

/-- A copy of the shared pointer to a shared anonymous entry. -/
def refAnon (s : Kernel) (o : AnonPtr) : Kernel :=
  s.modifyAnon o fun O => { O with refCount := O.refCount + 1 }

/-- The end of such a pointer: the last one deletes the `SharedAnonymousPage`. -/
def dropAnon (s : Kernel) (o : AnonPtr) : Kernel :=
  if (s.anon o).refCount = 1 then
    let page := (s.anon o).page
    let s := s.setAnon o none
    match page with
    | some d => s.destroyPage d
    | none => s
  else s.modifyAnon o fun O => { O with refCount := O.refCount - 1 }

/-- `~MemoryEntry()`, when the last pointer to the entry goes. -/
def dropEntry (s : Kernel) : MemoryEntry → Kernel
  | .memory d _ => s.destroyPage d
  | .anonymous _ _ => s
  | .sharedAnonymous o => s.dropAnon o
  | .file _ => s
  -- `~MemoryFilePage` unreferences the page before the member is destroyed
  | .fileMemory m _ => (s.unrefPage m.page).destroyPage m.page
  | .empty => s

/-- `f_memorymap.erase(a)`. -/
def eraseEntry (s : Kernel) (p a : Nat) : Kernel :=
  match (s.procs p).memorymap a with
  | none => s
  | some e => (s.setEntry p a none).dropEntry e

/-- `f_memorymap.insert({ a, e })` for a key that is not in the map. -/
def insertEntry (s : Kernel) (p a : Nat) (e : MemoryEntry) : Kernel :=
  let s := match e with
    | .sharedAnonymous o => s.refAnon o
    | _ => s
  s.setEntry p a (some e)

/-- One round of `unmap_pages`. -/
def unmapPage (s : Kernel) (p a : Nat) : Kernel :=
  match (s.procs p).memorymap a with
  | none => s
  | some e =>
      let s := match e with
        | .memory d _ => (s.unmap p a).unrefPage d
        | .fileMemory _ _ => s.unmap p a
        | _ => s
      s.eraseEntry p a

/-- `set_page_mapping(a, e)`. -/
def setPageMapping (s : Kernel) (p a : Nat) (e : MemoryEntry) : Kernel :=
  let s := if ((s.procs p).memorymap a).isSome then s.unmapPage p a else s
  s.insertEntry p a e

/-- `map_page(a, page, shared)`. -/
def mapPage (s : Kernel) (p a : Nat) (d : PagePtr) (shared : Bool) : Kernel :=
  let s := s.refPage d
  let s := s.map p a (s.page d).addr (s.page d).flags
  let s := s.copyPage d
  s.setPageMapping p a (.memory d shared)

/-! ## §5. Mapping and unmapping. -/

/-- The pages `a, a+1, ...` of a range, as 64-bit addresses wrap. -/
def pagesOf (a n : Nat) : List Nat := (List.range n).map fun i => (a + i) % 2 ^ 52

/-- `null_pages(a, n)`. -/
def nullPages (s : Kernel) (p a n : Nat) : Kernel :=
  (pagesOf a n).foldl (fun s x => s.setPageMapping p x .empty) s

/-- The flags `alloc_pages` derives from `prot`. -/
def protFlags (prot : Nat) : PageFlags :=
  .of true (prot.testBit 1) true (prot.testBit 2) false false

/-- `new SharedAnonymousPage(flags, zero)`, held by one shared pointer. -/
def newAnon (s : Kernel) (flags : PageFlags) (zero : Bool) : AnonPtr × Kernel :=
  (s.next, { (s.setAnon s.next (some ⟨flags, zero, none, 1⟩)) with next := s.next + 1 })

/-- One page of a shared `alloc_pages`: a new entry, of which the map keeps a
copy. -/
def allocShared (s : Kernel) (p x : Nat) (flags : PageFlags) (zero : Bool) : Kernel :=
  let (o, s) := s.newAnon flags zero
  (s.setPageMapping p x (.sharedAnonymous o)).dropAnon o

/-- `alloc_pages(a, n, flags, prot)`. -/
def allocPages (s : Kernel) (p a n flags prot : Nat) : Kernel :=
  if flags.testBit 0 ∧ prot ≠ 0 then
    (pagesOf a n).foldl (fun s x => s.allocShared p x (protFlags prot) (flags.testBit 3)) s
  else
    (pagesOf a n).foldl
      (fun s x => s.setPageMapping p x (.anonymous (protFlags prot) (flags.testBit 3))) s

/-- `file_pages(a, n, new FilePage(file, a, offset, shared, write, execute))`. -/
def filePages (s : Kernel) (p a n file offset : Nat) (shared write execute : Bool) : Kernel :=
  (pagesOf a n).foldl
    (fun s x => s.setPageMapping p x (.file ⟨file, a, offset, shared, write, execute⟩)) s

/-- `unmap_pages(a, n)`. -/
def unmapPages (s : Kernel) (p a n : Nat) : Kernel :=
  (pagesOf a n).foldl (fun s x => s.unmapPage p x) s

/-! ## §6. Resolving pages. -/

/-- `AnonymousPage::resolve`. -/
def resolveAnonymous (s : Kernel) (flags : PageFlags) (zero : Bool) (frame : Nat) :
    PagePtr × Kernel :=
  let (d, s) := s.newPage frame
  let s := s.setFlags d flags
  (d, if zero then s.setFrame (s.page d).addr (fun _ => 0) else s)

/-- `!f_page`: no page object, or one without a frame. -/
def isNull (s : Kernel) : Option PagePtr → Bool
  | none => true
  | some d => (s.page d).addr = 0

def setAnonPage (s : Kernel) (o : AnonPtr) (d : PagePtr) : Kernel :=
  s.modifyAnon o fun O => { O with page := some d }

/-- `f_page = page`: the old object ends before the new one is copied. -/
def assignAnonPage (s : Kernel) (o : AnonPtr) (d : PagePtr) : Kernel :=
  let s := match (s.anon o).page with
    | some d' => s.destroyPage d'
    | none => s
  (s.setAnonPage o d).copyPage d

/-- The body of `SharedAnonymousPage::resolve` when `f_page` is null. -/
def resolveFresh (s : Kernel) (o : AnonPtr) (frame : Nat) : Kernel :=
  let (d, s) := s.resolveAnonymous (s.anon o).flags (s.anon o).zero frame
  -- the local ends with the block
  (s.assignAnonPage o d).destroyPage d

/-- `SharedAnonymousPage::resolve`. -/
def resolveShared (s : Kernel) (o : AnonPtr) (frame : Nat) : PagePtr × Kernel :=
  let s := if s.isNull (s.anon o).page then s.resolveFresh o frame else s
  let d := (s.anon o).page.getD 0
  (d, s.copyPage d)

def setSharedPage (s : Kernel) (file offset : Nat) (d : Option PagePtr) : Kernel :=
  let pages := Function.update (s.sharedPages file) offset d
  { s with sharedPages := Function.update s.sharedPages file pages }

/-- `resolve_mapping` of the filesystems that have one. -/
def resolveMapping (m : Machine) (s : Kernel) (f : FilePage) (a frame : Nat) :
    Option PagePtr × Kernel :=
  let offset := (a - f.startAddr + f.offset) % 2 ^ 52
  match s.sharedPages f.file offset with
  | some d => (some d, s.copyPage d)
  | none =>
      match m.readFile f.file offset with
      | none => (none, s)
      | some bytes =>
          let (d, s) := s.newPage frame
          let s := s.setFlags d (.of true true false false true false)
          let s := s.setFrame (s.page d).addr bytes
          (some d, if f.shared then (s.copyPage d).setSharedPage f.file offset (some d) else s)

/-! ## §7. `handle_page_fault`. -/

/-- A copy-on-write fault on a page others map: copy it. -/
def copyMemory (s : Kernel) (p a : Nat) (d : PagePtr) (shared : Bool) (frame : Nat) :
    FaultResult × Kernel :=
  let (n, s) := s.newPage frame
  match s.load p a with
  | none => (.halted, s.halt p (some n))
  | some bytes =>
      let s := s.setFrame (s.page n).addr bytes
      let s := s.refPage n
      let s := s.setFlags n { (s.page d).flags with writable := true }
      let s := s.map p a (s.page n).addr (s.page n).flags
      let s := (s.unrefPage d).destroyPage d
      let s := (s.copyPage n).setEntry p a (some (.memory n shared))
      (.handled, s.destroyPage n)

/-- A copy-on-write fault on a page nobody else maps: make it writable. -/
def reenableMemory (s : Kernel) (p a : Nat) (d : PagePtr) : Kernel :=
  let s := s.setCopyOnWrite d false
  let s := s.setFlags d { (s.page d).flags with writable := true }
  s.map p a (s.page d).addr (s.page d).flags

/-- The `MEMORY` case.  Bit 0 of the code is "present", bit 1 "write". -/
def memoryFault (s : Kernel) (p a code frame : Nat) (d : PagePtr) (shared : Bool) :
    FaultResult × Kernel :=
  if code.testBit 1 ∧ (s.page d).copyOnWrite then
    if (s.page d).refCount > 1 then s.copyMemory p a d shared frame
    else (.handled, s.reenableMemory p a d)
  -- another thread of the process has handled the fault already
  else if code.testBit 0 = false then (.handled, s)
  else (.refused, s)

/-- The `ANONYMOUS` case, once the page is resolved. -/
def anonymousFault (m : Machine) (s : Kernel) (p a : Nat) (d : PagePtr) (shared : Bool) :
    FaultResult × Kernel :=
  if (s.page d).addr = 0 then (.refused, s.destroyPage d)
  else
    let s := s.mapPage p a d shared
    match s.store m p a (fun _ => 0) with
    | some s => (.handled, s.destroyPage d)
    | none => (.halted, s.halt p (some d))

/-- The mapping a `FILE` fault builds. -/
def resolvedMapping (s : Kernel) (f : FilePage) (a : Nat) (d : PagePtr) : MemoryFilePage :=
  if (s.page d).refCount ≠ 0 ∧ f.shared = false ∧ f.write then
    -- copy on write
    ⟨f.file, d, a - f.startAddr, true, { f.flags with writable := false }⟩
  else ⟨f.file, d, a - f.startAddr, false, f.flags⟩

/-- The `FILE` case. -/
def fileFault (m : Machine) (s : Kernel) (p a frame : Nat) (f : FilePage) :
    FaultResult × Kernel :=
  match s.resolveMapping m f a frame with
  | (none, s) => (.refused, s)
  | (some d, s) =>
      if (s.page d).addr = 0 then (.refused, s.destroyPage d)
      else
        let mapping := s.resolvedMapping f a d
        let s := s.copyPage d
        let s := s.refPage d
        let s := s.map p a (s.page d).addr mapping.flags
        let s := s.setPageMapping p a (.fileMemory mapping f.shared)
        (.handled, s.destroyPage d)

/-- `f_shared_pages.erase(offset)`. -/
def eraseSharedPage (s : Kernel) (file offset : Nat) : Kernel :=
  match s.sharedPages file offset with
  | none => s
  | some d => (s.setSharedPage file offset none).destroyPage d

/-- A copy-on-write fault on a file page others map.  The source is read at
`fault_address & !0xFFF`, which is page 0. -/
def copyFile (s : Kernel) (p a : Nat) (f : MemoryFilePage) (shared : Bool) (frame : Nat) :
    FaultResult × Kernel :=
  let (n, s) := s.newPage frame
  match s.load p 0 with
  | none => (.halted, s.halt p (some n))
  | some bytes =>
      let s := s.setFrame (s.page n).addr bytes
      let s := s.refPage n
      let flags := { f.flags with writable := true }
      let s := s.map p a (s.page n).addr flags
      let s := (s.unrefPage f.page).destroyPage f.page
      let s := s.copyPage n
      let s := s.setEntry p a (some (.fileMemory ⟨f.file, n, f.offset, false, flags⟩ shared))
      (.handled, s.destroyPage n)

/-- A copy-on-write fault on a file page nobody else maps: take it out of the
vnode's shared pages. -/
def stealFile (s : Kernel) (p a : Nat) (f : MemoryFilePage) (shared : Bool) : Kernel :=
  let s := s.eraseSharedPage f.file f.offset
  let flags := { f.flags with writable := true }
  let s := s.map p a (s.page f.page).addr flags
  s.setEntry p a (some (.fileMemory ⟨f.file, f.page, f.offset, false, flags⟩ shared))

/-- The `FILE_MEMORY` case. -/
def fileMemoryFault (s : Kernel) (p a code frame : Nat) (f : MemoryFilePage) (shared : Bool) :
    FaultResult × Kernel :=
  if code.testBit 1 ∧ f.copyOnWrite then
    if (s.page f.page).refCount > 1 then s.copyFile p a f shared frame
    else (.handled, s.stealFile p a f shared)
  else (.refused, s)

/-- `handle_page_fault(addr, code)`, when `palloc(1)` would return `frame`. -/
def handlePageFault (m : Machine) (s : Kernel) (p addr code frame : Nat) : FaultResult × Kernel :=
  if addr ≥ kernelStart ∨ addr = 0 then (.refused, s)
  else
    let a := addr / 2 ^ 12
    match (s.procs p).memorymap a with
    | none => (.refused, s)
    | some (.memory d shared) => s.memoryFault p a code frame d shared
    | some .empty => (.refused, s)
    | some (.anonymous flags zero) =>
        let (d, s) := s.resolveAnonymous flags zero frame
        s.anonymousFault m p a d false
    | some (.sharedAnonymous o) =>
        let (d, s) := s.resolveShared o frame
        s.anonymousFault m p a d true
    | some (.file f) => s.fileFault m p a frame f
    | some (.fileMemory f shared) => s.fileMemoryFault p a code frame f shared

/-- The page fault of a process: one that is not handled stops it. -/
def pageFault (m : Machine) (s : Kernel) (p addr code frame : Nat) : Kernel :=
  match s.handlePageFault m p addr code frame with
  | (.refused, s) => s.halt p none
  | (_, s) => s

/-! ## §8. `fork`. -/

/-- Write-protect a private page of the parent. -/
def protectMemory (s : Kernel) (p a : Nat) (d : PagePtr) : Kernel :=
  let s := s.setFlags d { (s.page d).flags with writable := false }
  let s := s.setCopyOnWrite d true
  s.map p a (s.page d).addr (s.page d).flags

/-- What a private file mapping becomes when its process forks. -/
def protectFile (f : MemoryFilePage) (shared : Bool) : MemoryFilePage :=
  if f.flags.writable ∧ shared = false then
    { f with copyOnWrite := true, flags := { f.flags with writable := false } }
  else f

/-- One entry of the parent's memory map. -/
def forkEntry (s : Kernel) (p child a : Nat) : Kernel :=
  match (s.procs p).memorymap a with
  | none => s
  | some (.memory d shared) =>
      let s :=
        if (s.page d).flags.writable ∧ shared = false then s.protectMemory p a d else s
      s.mapPage child a d shared
  | some (.fileMemory f shared) =>
      let g := protectFile f shared
      let s :=
        if f.flags.writable ∧ shared = false then
          (s.setEntry p a (some (.fileMemory g shared))).map p a (s.page f.page).addr g.flags
        else s
      let s := s.copyPage f.page
      let s := s.insertEntry child a (.fileMemory g shared)
      let s := s.map child a (s.page f.page).addr g.flags
      s.refPage f.page
  | some e => s.insertEntry child a e

/-- `fork()`.  `keys` is the order in which the memory map is walked. -/
def fork (s : Kernel) (p child : Nat) (keys : List Nat) : Kernel :=
  keys.foldl (fun s a => s.forkEntry p child a) (s.setProc child (.ofStatus .running))

/-! ## §9. Runs. -/

/-- Write one byte of a frame. -/
def setByte (s : Kernel) (frame o : Nat) (b : UInt8) : Kernel :=
  s.setFrame frame (Function.update (s.mem frame) o b)

end Kernel

/-- What processes do. -/
inductive Event
  | nullPages (p a n : Nat)
  | allocPages (p a n flags prot : Nat)
  | filePages (p a n file offset : Nat) (shared write execute : Bool)
  | unmapPages (p a n : Nat)
  | pageFault (p addr code frame : Nat)
  | fork (p child : Nat) (keys : List Nat)
  | userRead (p a o : Nat) (b : UInt8)
  | userWrite (p a o : Nat) (b : UInt8)
  deriving Repr, DecidableEq

/-- `keys` lists the memory map of a process once. -/
def Process.Enumerates (proc : Process) (keys : List Nat) : Prop :=
  keys.Nodup ∧ ∀ a, a ∈ keys ↔ proc.memorymap a ≠ none

/-- The page of process `p` allows user access, for writing if asked. -/
def Kernel.Permits (s : Kernel) (p a frame : Nat) (write : Bool) : Prop :=
  ∃ flags, (s.procs p).pager a = some (frame, flags) ∧ flags.userAccesible = true
    ∧ (write = true → flags.writable = true)

/-- **One event.**  Only a running process does anything.  `palloc` returns a
frame that is not in use, or 0 when there is none. -/
inductive Step (m : Machine) : Kernel → Event → Kernel → Prop
  | nullPages {s : Kernel} {p a n : Nat} : (s.procs p).status = .running →
      Step m s (.nullPages p a n) (s.nullPages p a n)
  | allocPages {s : Kernel} {p a n flags prot : Nat} : (s.procs p).status = .running →
      Step m s (.allocPages p a n flags prot) (s.allocPages p a n flags prot)
  | filePages {s : Kernel} {p a n file offset : Nat} {shared write execute : Bool} :
      (s.procs p).status = .running →
      Step m s (.filePages p a n file offset shared write execute)
        (s.filePages p a n file offset shared write execute)
  | unmapPages {s : Kernel} {p a n : Nat} : (s.procs p).status = .running →
      Step m s (.unmapPages p a n) (s.unmapPages p a n)
  | pageFault {s : Kernel} {p addr code frame : Nat} : (s.procs p).status = .running →
      (frame = 0 ∨ s.used frame = false) →
      Step m s (.pageFault p addr code frame) (s.pageFault m p addr code frame)
  | fork {s : Kernel} {p child : Nat} {keys : List Nat} : (s.procs p).status = .running →
      (s.procs child).status = .absent → (s.procs p).Enumerates keys →
      Step m s (.fork p child keys) (s.fork p child keys)
  | userRead {s : Kernel} {p a o frame : Nat} : (s.procs p).status = .running →
      s.Permits p a frame false → Step m s (.userRead p a o (s.mem frame o)) s
  | userWrite {s : Kernel} {p a o frame : Nat} {b : UInt8} : (s.procs p).status = .running →
      s.Permits p a frame true → Step m s (.userWrite p a o b) (s.setByte frame o b)

/-- The states a run may start in: processes with nothing mapped, no page
object, nothing cached; memory and the allocator are arbitrary. -/
structure Initial (s : Kernel) : Prop where
  pages : ∀ d, s.pages d = none
  anons : ∀ o, s.anons o = none
  procs : ∀ p, (s.procs p).memorymap = (fun _ => none) ∧ (s.procs p).pager = (fun _ => none)
    ∧ ((s.procs p).status = .absent ∨ (s.procs p).status = .running)
  sharedPages : ∀ file offset, s.sharedPages file offset = none

end MierOS.Tasking
