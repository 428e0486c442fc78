/-
  MierOS.Memory.Virtual — the four-level pager of
  `kernel/src/memory/virtual.cpp`, down to the work pages.

  Page structures live in physical frames.  The kernel reaches them through
  512 virtual pages at the top of the address space: slot `i` of the CONTROL
  PAGE decides which frame `WORKPAGE(i)` shows, and the last slot shows the
  control page itself.  Both windows are resolved here the way the hardware
  does it, by walking the shared kernel directory, so a write that hits the
  window is seen by every later access through it.

  `Pager::pagers` and the `Pager` objects are one table indexed by creation
  order.  Physical frames are frame numbers; `palloc(1)` takes the next frame
  of `supply`, and the model stops when that frame is in use, which is the
  assumption every result about the pager rests on.  Locks, assertions (which
  only log) and TLB flushes have no state of their own.
-/
import Mathlib.Algebra.Group.Nat.Defs
import Mathlib.Data.List.Basic
import Mathlib.Tactic.Common

namespace MierOS.Memory.Virtual

/-! ## §1. Flags and entries. -/

/-- `PageFlags`. -/
structure PageFlags where
  present : Bool
  writable : Bool
  userAccesible : Bool
  executable : Bool
  global : Bool
  cacheDisable : Bool
  dirty : Bool
  deriving Repr, DecidableEq, Inhabited

/-- The flags that `PageFlags(present, writable, user, executable, global,
cache_disable)` builds. -/
def PageFlags.of (present writable userAccesible executable global cacheDisable : Bool) :
    PageFlags :=
  ⟨present, writable, userAccesible, executable, global, cacheDisable, false⟩

/-- `PageStructuresEntry`: one 64-bit entry of a page structure. -/
structure PageStructuresEntry where
  present : Bool
  write : Bool
  user : Bool
  writeThrough : Bool
  cacheDisabled : Bool
  accesed : Bool
  dirty : Bool
  patPs : Bool
  global : Bool
  available : Nat
  address : Nat
  available2 : Nat
  protectionKey : Nat
  executeDisable : Bool
  deriving Repr, DecidableEq, Inhabited

/-- The entry whose `raw` value is the given 64-bit word. -/
def PageStructuresEntry.ofRaw (raw : Nat) : PageStructuresEntry where
  present := raw.testBit 0
  write := raw.testBit 1
  user := raw.testBit 2
  writeThrough := raw.testBit 3
  cacheDisabled := raw.testBit 4
  accesed := raw.testBit 5
  dirty := raw.testBit 6
  patPs := raw.testBit 7
  global := raw.testBit 8
  available := (raw >>> 9) % 2 ^ 3
  address := (raw >>> 12) % 2 ^ 40
  available2 := (raw >>> 52) % 2 ^ 7
  protectionKey := (raw >>> 59) % 2 ^ 4
  executeDisable := raw.testBit 63

/-- The entry `Pager::map` leaves in a slot that held `e`. -/
def PageStructuresEntry.mapTo (e : PageStructuresEntry) (phys : Nat) (flags : PageFlags) :
    PageStructuresEntry :=
  { e with
    address := phys % 2 ^ 40
    present := true
    write := flags.writable
    user := flags.userAccesible
    executeDisable := !flags.executable
    global := flags.global
    cacheDisabled := flags.cacheDisable
    dirty := flags.dirty }

/-- The entry `Pager::flags` leaves in a slot that held `e`. -/
def PageStructuresEntry.withFlags (e : PageStructuresEntry) (flags : PageFlags) :
    PageStructuresEntry :=
  { e with
    present := true
    write := flags.writable
    user := flags.userAccesible
    executeDisable := !flags.executable
    global := flags.global
    cacheDisabled := flags.cacheDisable
    dirty := flags.dirty }

/-- The flags `Pager::getFlags` reads out of an entry. -/
def PageStructuresEntry.flags (e : PageStructuresEntry) : PageFlags :=
  if e.present then
    { present := true
      writable := e.write
      userAccesible := e.user
      executable := !e.executeDisable
      global := e.global
      cacheDisable := e.cacheDisabled
      dirty := e.dirty }
  else ⟨false, false, false, false, false, false, false⟩

/-- `KERNEL_START`. -/
def kernelStart : Nat := 0xFFFFFFFF80000000

/-! ## §2. The state. -/

/-- A `Pager` object. `none` is the `-1` of `work_pages`. -/
structure Pager where
  pml4 : Nat
  workPages : Nat → Option Nat
  currentPml4e : Int
  currentPdpte : Int
  currentPde : Int
  lockDepth : Nat
  firstPotentialPage : Nat

/-- Physical memory read as page structures, the pagers and the statics. -/
structure Paging where
  mem : Nat → Nat → PageStructuresEntry
  kernelPd0 : Nat
  kernelPd1 : Nat
  pagers : Nat → Pager
  pagerCount : Nat
  firstPotentialKernelPage : Nat
  used : Nat → Bool
  supply : List Nat

namespace Paging

/-- Write one entry of a frame. -/
def setEntry (s : Paging) (frame index : Nat) (e : PageStructuresEntry) : Paging :=
  { s with mem := fun f i => if f = frame ∧ i = index then e else s.mem f i }

/-- `memset(frame, 0, 4096)`. -/
def zeroFrame (s : Paging) (frame : Nat) : Paging :=
  { s with mem := fun f i => if f = frame then .ofRaw 0 else s.mem f i }

def setPager (s : Paging) (p : Nat) (pg : Pager) : Paging :=
  { s with pagers := fun q => if q = p then pg else s.pagers q }

/-- The page table behind the work-page window. -/
def windowTable (s : Paging) : Nat := (s.mem s.kernelPd1 511).address

/-- The frame `WORKPAGE(i)` shows. -/
def workFrame (s : Paging) (i : Nat) : Nat := (s.mem s.windowTable i).address

/-- The frame `CONTROL_PAGE` shows. -/
def controlFrame (s : Paging) : Nat := s.workFrame 511

/-- `CONTROL_PAGE[i].raw = ...`. -/
def setControl (s : Paging) (i : Nat) (e : PageStructuresEntry) : Paging :=
  s.setEntry s.controlFrame i e

/-- `palloc(1)`: the next frame the allocator hands out, which is not in use. -/
def palloc (s : Paging) : Option (Nat × Paging) :=
  match s.supply with
  | [] => none
  | f :: rest =>
      if s.used f = true ∨ 2 ^ 40 ≤ f then none
      else some (f, { s with
        supply := rest
        used := fun x => if x = f then true else s.used x })

/-- `aquireWorkpageIndex()`: the first control slot that is not present. -/
def aquireWorkpageIndex (s : Paging) : Option (Nat × Paging) :=
  match (List.range 511).find? (fun i => !(s.mem s.controlFrame i).present) with
  | none => none
  | some i => some (i, s.setControl i { s.mem s.controlFrame i with present := true })

/-- `releaseWorkpageIndex(index)`. -/
def releaseWorkpageIndex (s : Paging) (i : Nat) : Paging :=
  s.setControl i { s.mem s.controlFrame i with present := false }

/-- `getWorkpage(index)`. -/
def getWorkpage (s : Paging) (p slot : Nat) : Option (Nat × Paging) :=
  match (s.pagers p).workPages slot with
  | some w => some (w, s)
  | none =>
      (aquireWorkpageIndex s).map fun (w, s) =>
        (w, s.setPager p { s.pagers p with
          workPages := fun k => if k = slot then some w else (s.pagers p).workPages k })

/-- The raw value that shows `frame` in a control slot. -/
def controlEntry (frame : Nat) : PageStructuresEntry :=
  .ofRaw (frame <<< 12 ||| 0x8000000000000003)

/-- The raw value that links a lower page structure. -/
def linkEntry (frame : Nat) : PageStructuresEntry := .ofRaw (frame <<< 12 ||| 0x07)

/-! ## §3. `mapStructures`. -/

/-- One level of `mapStructures`: show in this pager's work page `slot` the
structure under entry `index` of the structure shown at `parent`, creating it
when it is missing. -/
def mapLevel (s : Paging) (p slot parent index : Nat) : Option (Nat × Paging) := do
  let (work, s) ← s.getWorkpage p slot
  if (s.mem (s.workFrame parent) index).present then
    let addr := (s.mem (s.workFrame parent) index).address
    return (work, s.setControl work (controlEntry addr))
  else
    let (addr, s) ← s.palloc
    let s := s.setEntry (s.workFrame parent) index (linkEntry addr)
    let s := s.setControl work (controlEntry addr)
    return (work, s.zeroFrame (s.workFrame work))

/-- The head of `mapStructures`: map the PML4 if it is not already mapped. -/
def mapPml4 (s : Paging) (p : Nat) : Option (Nat × Paging) :=
  match (s.pagers p).workPages 0 with
  | some w => some (w, s)
  | none => (s.getWorkpage p 0).map fun (w, s) =>
      (w, s.setControl w (controlEntry (s.pagers p).pml4))

/-- `mapStructures(new_pml4e, new_pdpte, new_pde)`.  A work index the source
leaves uninitialised is `none`, and reading it stops the model. -/
def mapStructures (s : Paging) (p newPml4e newPdpte newPde : Nat) : Option Paging := do
  let pg := s.pagers p
  let (pml4Work, s) ← s.mapPml4 p
  -- remap the PDPT if required
  let remap := pg.currentPml4e ≠ (newPml4e : Int)
  let (pdptWork, s) ←
    if remap then (s.mapLevel p 1 pml4Work newPml4e).map (Prod.map some id) else some (none, s)
  -- remap the PD if required
  let remap := pg.currentPdpte ≠ (newPdpte : Int) ∨ remap
  let (pdWork, s) ←
    if remap then pdptWork.bind fun w => (s.mapLevel p 2 w newPdpte).map (Prod.map some id)
    else some (none, s)
  -- remap the PT if required
  if pg.currentPde ≠ (newPde : Int) ∨ remap then
    pdWork.bind fun w => (s.mapLevel p 3 w newPde).map Prod.snd
  else some s

/-! ## §4. Locking, construction. -/

/-- `lock()`. -/
def lock (s : Paging) (p : Nat) : Paging :=
  s.setPager p { s.pagers p with
    lockDepth := (s.pagers p).lockDepth + 1
    currentPml4e := -1
    currentPdpte := -1
    currentPde := -1 }

/-- Give back the work page in `slot`, if there is one. -/
def releaseSlot (s : Paging) (p slot : Nat) : Paging :=
  match (s.pagers p).workPages slot with
  | none => s
  | some w =>
      let s := s.releaseWorkpageIndex w
      s.setPager p { s.pagers p with
        workPages := fun k => if k = slot then none else (s.pagers p).workPages k }

/-- `unlock()`. -/
def unlock (s : Paging) (p : Nat) : Paging :=
  let s := (List.range 4).foldl (fun s i => s.releaseSlot p i) s
  s.setPager p { s.pagers p with lockDepth := (s.pagers p).lockDepth - 1 }

/-- Show `frame` at `WORKPAGE(work)` and clear it. -/
def newStructure (s : Paging) (work frame : Nat) : Paging :=
  let s := s.setControl work (.ofRaw (frame <<< 12 ||| 0x03))
  s.zeroFrame (s.workFrame work)

/-- `Pager::Pager()`.  The `current_*` fields are left as they are; `lock` sets
them before anything reads them. -/
def newPager (s : Paging) : Option Paging := do
  let (pml4, s) ← s.palloc
  -- allocate a PML4
  let (index, s) ← s.aquireWorkpageIndex
  let s := s.newStructure index pml4
  -- allocate a PDPT
  let (index2, s) ← s.aquireWorkpageIndex
  let (pdpt, s) ← s.palloc
  let s := s.newStructure index2 pdpt
  -- map the kernel pages
  let s := s.setEntry (s.workFrame index) 511 (.ofRaw (pdpt <<< 12 ||| 0x03))
  let s := s.setEntry (s.workFrame index2) 510 (.ofRaw (s.kernelPd0 <<< 12 ||| 0x03))
  let s := s.setEntry (s.workFrame index2) 511 (.ofRaw (s.kernelPd1 <<< 12 ||| 0x03))
  let s := s.releaseWorkpageIndex index
  let s := s.releaseWorkpageIndex index2
  return { s with
    pagers := fun q =>
      if q = s.pagerCount then
        { pml4 := pml4, workPages := fun _ => none
          currentPml4e := 0, currentPdpte := 0, currentPde := 0
          lockDepth := 0, firstPotentialPage := 0x1000 }
      else s.pagers q
    pagerCount := s.pagerCount + 1 }

/-! ## §5. The mapping operations. -/

/-- The index of page `v` in the PML4, the PDPT, the PD and the PT. -/
def pml4e (v : Nat) : Nat := (v >>> 27) &&& 0x1FF
def pdpte (v : Nat) : Nat := (v >>> 18) &&& 0x1FF
def pde (v : Nat) : Nat := (v >>> 9) &&& 0x1FF
def pte (v : Nat) : Nat := (v >>> 0) &&& 0x1FF

/-- `mapStructures` for the virtual page `v`. -/
def mapStructuresAt (s : Paging) (p v : Nat) : Option Paging :=
  s.mapStructures p (pml4e v) (pdpte v) (pde v)

/-- One round of the loop of `map`. -/
def mapRound (s : Paging) (p ptWork v phys : Nat) (flags : PageFlags) : Option Paging := do
  let s ← s.mapStructuresAt p v
  let pt := s.workFrame ptWork
  return s.setEntry pt (pte v) ((s.mem pt (pte v)).mapTo phys flags)

/-- `map(phys, virt, length, flags)`. -/
def map (s : Paging) (p phys virt length : Nat) (flags : PageFlags) : Option Paging := do
  let (ptWork, s) ← s.getWorkpage p 3
  (List.range length).foldlM
    (fun s i => s.mapRound p ptWork ((virt >>> 12) + i) ((phys >>> 12) + i) flags) s

/-- One round of the loop of `unmap`, carrying the address it returns. -/
def unmapRound (s : Paging) (p ptWork v addr : Nat) : Option (Nat × Paging) := do
  let s ← s.mapStructuresAt p v
  let pt := s.workFrame ptWork
  let addr := if addr = 0 then (s.mem pt (pte v)).address <<< 12 else addr
  return (addr, s.setEntry pt (pte v) (.ofRaw 0))

/-- `unmap(virt, length)`. -/
def unmap (s : Paging) (p virt length : Nat) : Option (Nat × Paging) := do
  let (ptWork, s) ← s.getWorkpage p 3
  let (addr, s) ← (List.range length).foldlM
    (fun (acc : Nat × Paging) i => acc.2.unmapRound p ptWork ((virt >>> 12) + i) acc.1) (0, s)
  -- the page number, not the address, is compared here
  let virt := virt >>> 12
  return (addr,
    if virt < s.firstPotentialKernelPage ∧ virt ≥ kernelStart
    then { s with firstPotentialKernelPage := virt } else s)

/-- One round of the loop of `flags`. -/
def flagsRound (s : Paging) (p ptWork v : Nat) (flags : PageFlags) : Option Paging := do
  let s ← s.mapStructuresAt p v
  let pt := s.workFrame ptWork
  return s.setEntry pt (pte v) ((s.mem pt (pte v)).withFlags flags)

/-- `flags(virt, length, flags)`. -/
def flags (s : Paging) (p virt length : Nat) (flags : PageFlags) : Option Paging := do
  let (ptWork, s) ← s.getWorkpage p 3
  (List.range length).foldlM (fun s i => s.flagsRound p ptWork ((virt >>> 12) + i) flags) s

/-- The entry that `getFlags` and `getPhysicalAddress` look at. -/
def entryOf (s : Paging) (p virt : Nat) : Option (PageStructuresEntry × Paging) := do
  let s ← s.mapStructuresAt p (virt >>> 12)
  let (work, s) ← s.getWorkpage p 3
  return (s.mem (s.workFrame work) (pte (virt >>> 12)), s)

/-- `getPhysicalAddress(virt)`. -/
def getPhysicalAddress (s : Paging) (p virt : Nat) : Option (Nat × Paging) :=
  (s.entryOf p virt).map fun (e, s) => (e.address <<< 12 ||| (virt &&& 0xFFF), s)

/-- `getFlags(virt)`. -/
def getFlags (s : Paging) (p virt : Nat) : Option (PageFlags × Paging) :=
  (s.entryOf p virt).map fun (e, s) => (e.flags, s)

/-- The inner loop of `getFreeRange` over `count` pages from `offset` on: the
offset of the first present page. -/
def probeRange (p addr : Nat) : Nat → Nat → Paging → Option (Option Nat × Paging)
  | 0, _, s => some (none, s)
  | count + 1, offset, s => do
      let (flags, s) ← s.getFlags p ((addr + offset) % 2 ^ 64)
      if flags.present then return (some offset, s)
      else probeRange p addr count (offset + 0x1000) s

/-- Move the search hints past a present page. -/
def bumpHints (s : Paging) (p addr offset : Nat) : Paging :=
  let past := (addr + offset + (1 <<< 12)) % 2 ^ 64
  { s with
    pagers := fun q =>
      if q = p ∧ addr = (s.pagers p).firstPotentialPage
      then { s.pagers p with firstPotentialPage := past } else s.pagers q
    firstPotentialKernelPage :=
      if addr = s.firstPotentialKernelPage then past else s.firstPotentialKernelPage }

/-- The outer loop of `getFreeRange`. -/
def getFreeRangeLoop (p length : Nat) : Nat → Nat → Paging → Option (Nat × Paging)
  | 0, _, _ => none
  | fuel + 1, addr, s =>
      if addr = 0 then some (0, s)
      else do
        let (hit, s) ← probeRange p addr length 0 s
        match hit with
        | none => return (addr, s)
        | some offset =>
            getFreeRangeLoop p length fuel ((addr + offset + 0x1000) % 2 ^ 64)
              (s.bumpHints p addr offset)

/-- `getFreeRange(start, length)`: the address grows by at least a page a
round, so the distance to the top bounds the rounds.  `length << 12` is 64 bits
wide. -/
def getFreeRange (s : Paging) (p start length : Nat) : Option (Nat × Paging) :=
  getFreeRangeLoop p (length % 2 ^ 52) ((2 ^ 64 - start) / 0x1000 + 2) start s

/-- `kmap(phys, length, flags)`. -/
def kmap (s : Paging) (p phys length : Nat) (flags : PageFlags) : Option (Nat × Paging) := do
  let (start, s) ← s.getFreeRange p s.firstPotentialKernelPage length
  let s ← s.map p phys start length flags
  return (start + (phys &&& 0xFFF), s)

/-! ## §6. `Pager::init`. -/

/-- A range the bootloader mapped for the kernel (`stivale2_pmr`). -/
structure Pmr where
  base : Nat
  length : Nat
  executable : Bool
  writable : Bool
  deriving Repr, DecidableEq

/-- The page table under entry `index` of the first kernel directory, created
when it is missing. -/
def initPageTable (s : Paging) (index : Nat) : Option (Nat × Paging) :=
  if (s.mem s.kernelPd0 index).present then some ((s.mem s.kernelPd0 index).address, s)
  else s.palloc.map fun (pt, s) =>
    let s := s.setEntry s.kernelPd0 index
      { PageStructuresEntry.ofRaw (pt <<< 12) with present := true, write := true }
    (pt, s.zeroFrame pt)

/-- One page of the loop that rebuilds the kernel mapping. -/
def initPage (kernelBaseP kernelBaseV : Nat) (pmr : Pmr) (s : Paging) (i : Nat) :
    Option Paging := do
  let addr := pmr.base + 0x1000 * i
  let (pt, s) ← s.initPageTable ((addr >>> 21) &&& 0x1FF)
  let raw := PageStructuresEntry.ofRaw ((addr + 2 ^ 64 - kernelBaseV + kernelBaseP) % 2 ^ 64)
  return s.setEntry pt ((addr >>> 12) &&& 0x1FF)
    { raw with
      present := true
      global := true
      write := raw.write || pmr.writable
      executeDisable := raw.executeDisable || !pmr.executable }

/-- The loop over one range. -/
def initPmr (kernelBaseP kernelBaseV : Nat) (s : Paging) (pmr : Pmr) : Option Paging :=
  (List.range ((pmr.length + 0xFFF) / 0x1000)).foldlM (initPage kernelBaseP kernelBaseV pmr) s

/-- The head of `Pager::init`: the kernel directories, and the bootstrap PML4
and PDPT that stand in until the first pager exists. -/
def initDirectories (s : Paging) : Option (Nat × Nat × Paging) := do
  let (initPml4, s) ← s.palloc
  let (initPdpt, s) ← s.palloc
  let (pd0, s) ← s.palloc
  let (pd1, s) ← s.palloc
  let s := { s with kernelPd0 := pd0, kernelPd1 := pd1 }
  let s := s.zeroFrame pd0
  let s := s.zeroFrame pd1
  let s := s.setEntry initPml4 511 (.ofRaw (initPdpt <<< 12 ||| 0x03))
  let s := s.setEntry initPdpt 510 (.ofRaw (pd0 <<< 12 ||| 0x03))
  let s := s.setEntry initPdpt 511 (.ofRaw (pd1 <<< 12 ||| 0x03))
  return (initPml4, initPdpt, s)

/-- The control page, which shows itself in its last slot. -/
def initControl (s : Paging) : Option Paging := do
  let (control, s) ← s.palloc
  let s := s.zeroFrame control
  let s := s.setEntry s.kernelPd1 511 (.ofRaw (control <<< 12 ||| 0x03))
  return s.setEntry control 511 (.ofRaw (control <<< 12 ||| 0x8000000000000103))

/-- The state before `Pager::init`, on a machine whose memory holds `mem` and
whose allocator holds `used` and hands out `supply`. -/
def reset (mem : Nat → Nat → PageStructuresEntry) (used : Nat → Bool) (supply : List Nat) :
    Paging :=
  { mem := mem, kernelPd0 := 0, kernelPd1 := 0
    pagers := fun _ => ⟨0, fun _ => none, 0, 0, 0, 0, 0⟩, pagerCount := 0
    firstPotentialKernelPage := 0, used := used, supply := supply }

/-- `Pager::init(kernel_base_p, kernel_base_v, pmrs)`. -/
def init (mem : Nat → Nat → PageStructuresEntry) (used : Nat → Bool) (supply : List Nat)
    (kernelBaseP kernelBaseV : Nat) (pmrs : List Pmr) : Option Paging := do
  let (initPml4, initPdpt, s) ← (reset mem used supply).initDirectories
  let s ← pmrs.foldlM (initPmr kernelBaseP kernelBaseV) s
  let s ← s.initControl
  let s := { s with firstPotentialKernelPage := kernelStart }
  let s ← s.newPager
  return { s with used := fun x => if x = initPml4 ∨ x = initPdpt then false else s.used x }

end Paging

end MierOS.Memory.Virtual
