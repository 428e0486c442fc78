/-
  MierOS.Tasking.AddressSpace
  **MEMORY WITHOUT FRAMES AND COUNTS**, the abstract model of the processes'
  memory.

  A page is an object with its own contents that never dies; page tables point
  to pages; the number of mappings of a page is computed, not kept
  (`Space.readers`).  What a page is for is part of it: memory of one process,
  a shared anonymous page, or a page of a file.  The operations carry the names
  of those of `Kernel`, and `Tasking.Refinement` connects the two.

  Memory contents enter in two places only: a new page shows what its frame
  held before, and a copy reads through the page table.  Both read `mem`, the
  frames as they are.
-/
import MierOS.Tasking.Counts

namespace MierOS.Tasking

open Memory.Virtual
open Lib.Refs

/-! ## §1. Data. -/

/-- What a page is for. -/
inductive Kind
  | priv
  | shared (o : AnonPtr)
  | file (file offset : Nat)
  deriving DecidableEq

structure PageInfo where
  kind : Kind
  addr : Nat
  flags : PageFlags
  copyOnWrite : Bool
  bytes : Bytes

structure AnonInfo where
  flags : PageFlags
  zero : Bool
  page : Option PagePtr

structure Space where
  maps : Maps
  table : Nat → Nat → Option (PagePtr × PageFlags)
  status : Nat → Status
  pages : PagePtr → PageInfo
  anons : AnonPtr → AnonInfo
  sharedPages : Nat → Nat → Option PagePtr
  next : Nat

namespace Space

/-! ## §2. Primitives. -/

def setEntry (v : Space) (p a : Nat) (e : Option MemoryEntry) : Space :=
  { v with maps := v.maps.set p a e }

def setTable (v : Space) (p a : Nat) (pte : Option (PagePtr × PageFlags)) : Space :=
  { v with table := Function.update v.table p (Function.update (v.table p) a pte) }

def map (v : Space) (p a : Nat) (d : PagePtr) (flags : PageFlags) : Space :=
  v.setTable p a (some (d, { flags with present := true }))

def modifyPage (v : Space) (d : PagePtr) (f : PageInfo → PageInfo) : Space :=
  { v with pages := Function.update v.pages d (f (v.pages d)) }

def setFlags (v : Space) (d : PagePtr) (flags : PageFlags) : Space :=
  v.modifyPage d fun D => { D with flags := flags }

def setCopyOnWrite (v : Space) (d : PagePtr) (b : Bool) : Space :=
  v.modifyPage d fun D => { D with copyOnWrite := b }

def setBytes (v : Space) (d : PagePtr) (bytes : Bytes) : Space :=
  v.modifyPage d fun D => { D with bytes := bytes }

def newPage (v : Space) (kind : Kind) (frame : Nat) (bytes : Bytes) : Space :=
  { v with
    pages := Function.update v.pages v.next ⟨kind, frame, defaultFlags, false, bytes⟩
    next := v.next + 1 }

def newAnon (v : Space) (flags : PageFlags) (zero : Bool) : Space :=
  { v with anons := Function.update v.anons v.next ⟨flags, zero, none⟩, next := v.next + 1 }

def setAnonPage (v : Space) (o : AnonPtr) (d : PagePtr) : Space :=
  { v with anons := Function.update v.anons o { v.anons o with page := some d } }

def setSharedPage (v : Space) (file offset : Nat) (d : Option PagePtr) : Space :=
  let pages := Function.update (v.sharedPages file) offset d
  { v with sharedPages := Function.update v.sharedPages file pages }

def setStatus (v : Space) (p : Nat) (status : Status) : Space :=
  { v with status := Function.update v.status p status }

/-- **How many mappings a page has.** -/
noncomputable def readers (v : Space) (d : PagePtr) : Nat := refs (mapped v.maps) d

/-! ## §3. Mapping and unmapping. -/

def unmapPage (v : Space) (p a : Nat) : Space :=
  match v.maps p a with
  | none => v
  | some e => (if e.held.isSome then v.setTable p a none else v).setEntry p a none

def setPageMapping (v : Space) (p a : Nat) (e : MemoryEntry) : Space :=
  (v.unmapPage p a).setEntry p a (some e)

def mapPage (v : Space) (p a : Nat) (d : PagePtr) (shared : Bool) : Space :=
  (v.map p a d (v.pages d).flags).setPageMapping p a (.memory d shared)

def nullPages (v : Space) (p a n : Nat) : Space :=
  (Kernel.pagesOf a n).foldl (fun v x => v.setPageMapping p x .empty) v

def allocShared (v : Space) (p x : Nat) (flags : PageFlags) (zero : Bool) : Space :=
  (v.newAnon flags zero).setPageMapping p x (.sharedAnonymous v.next)

def allocPages (v : Space) (p a n flags prot : Nat) : Space :=
  if flags.testBit 0 ∧ prot ≠ 0 then
    (Kernel.pagesOf a n).foldl
      (fun v x => v.allocShared p x (Kernel.protFlags prot) (flags.testBit 3)) v
  else
    (Kernel.pagesOf a n).foldl
      (fun v x => v.setPageMapping p x (.anonymous (Kernel.protFlags prot) (flags.testBit 3))) v

def filePages (v : Space) (p a n file offset : Nat) (shared write execute : Bool) : Space :=
  (Kernel.pagesOf a n).foldl
    (fun v x => v.setPageMapping p x (.file ⟨file, a, offset, shared, write, execute⟩)) v

def unmapPages (v : Space) (p a n : Nat) : Space :=
  (Kernel.pagesOf a n).foldl (fun v x => v.unmapPage p x) v

/-! ## §4. Page faults. -/

def resolveAnonymous (v : Space) (kind : Kind) (flags : PageFlags) (zero : Bool) (frame : Nat)
    (mem : Nat → Bytes) : Space :=
  let d := v.next
  let v := v.newPage kind frame (mem frame)
  let v := v.setFlags d flags
  if zero then v.setBytes d (fun _ => 0) else v

/-- No page, or one without a frame. -/
def isNull (v : Space) : Option PagePtr → Bool
  | none => true
  | some d => (v.pages d).addr = 0

def resolveFresh (v : Space) (o : AnonPtr) (frame : Nat) (mem : Nat → Bytes) : Space :=
  (v.resolveAnonymous (.shared o) (v.anons o).flags (v.anons o).zero frame mem).setAnonPage o v.next

def resolveShared (v : Space) (o : AnonPtr) (frame : Nat) (mem : Nat → Bytes) : Space :=
  if v.isNull (v.anons o).page then v.resolveFresh o frame mem else v

/-- A page of the file, from the vnode or from the disk. -/
def resolveMapping (m : Machine) (v : Space) (f : FilePage) (a frame : Nat) (mem : Nat → Bytes) :
    Option PagePtr × Space :=
  let offset := (a - f.startAddr + f.offset) % 2 ^ 52
  match v.sharedPages f.file offset with
  | some d => (some d, v)
  | none =>
      match m.readFile f.file offset with
      | none => (none, v)
      | some bytes =>
          let d := v.next
          let v := v.newPage (.file f.file offset) frame (mem frame)
          let v := v.setFlags d (.of true true false false true false)
          let v := v.setBytes d bytes
          (some d, if f.shared then v.setSharedPage f.file offset (some d) else v)

def copyMemory (v : Space) (p a : Nat) (d : PagePtr) (shared : Bool) (frame : Nat)
    (mem : Nat → Bytes) : FaultResult × Space :=
  let n := v.next
  let v := v.newPage (v.pages d).kind frame (mem frame)
  match v.table p a with
  | none => (.halted, v.setStatus p (.stuck (some n)))
  | some (x, _) =>
      let v := v.setBytes n (mem (v.pages x).addr)
      let v := v.setFlags n { (v.pages d).flags with writable := true }
      let v := v.map p a n (v.pages n).flags
      (.handled, v.setEntry p a (some (.memory n shared)))

def reenableMemory (v : Space) (p a : Nat) (d : PagePtr) : Space :=
  let v := v.setCopyOnWrite d false
  let v := v.setFlags d { (v.pages d).flags with writable := true }
  v.map p a d (v.pages d).flags

noncomputable def memoryFault (v : Space) (p a code frame : Nat) (d : PagePtr) (shared : Bool)
    (mem : Nat → Bytes) : FaultResult × Space :=
  if code.testBit 1 ∧ (v.pages d).copyOnWrite then
    if v.readers d > 1 then v.copyMemory p a d shared frame mem
    else (.handled, v.reenableMemory p a d)
  else if code.testBit 0 = false then (.handled, v)
  else (.refused, v)

def anonymousFault (m : Machine) (v : Space) (p a : Nat) (d : PagePtr) (shared : Bool) :
    FaultResult × Space :=
  if (v.pages d).addr = 0 then (.refused, v)
  else
    let v := v.mapPage p a d shared
    if (v.pages d).flags.writable ∨ m.wp = false then (.handled, v.setBytes d (fun _ => 0))
    else (.halted, v.setStatus p (.stuck (some d)))

noncomputable def resolvedMapping (v : Space) (f : FilePage) (a : Nat) (d : PagePtr) :
    MemoryFilePage :=
  if v.readers d ≠ 0 ∧ f.shared = false ∧ f.write then
    ⟨f.file, d, a - f.startAddr, true, { f.flags with writable := false }⟩
  else ⟨f.file, d, a - f.startAddr, false, f.flags⟩

noncomputable def fileFault (m : Machine) (v : Space) (p a frame : Nat) (f : FilePage)
    (mem : Nat → Bytes) : FaultResult × Space :=
  match v.resolveMapping m f a frame mem with
  | (none, v) => (.refused, v)
  | (some d, v) =>
      if (v.pages d).addr = 0 then (.refused, v)
      else
        let mapping := v.resolvedMapping f a d
        let v := v.map p a d mapping.flags
        (.handled, v.setPageMapping p a (.fileMemory mapping f.shared))

def copyFile (v : Space) (p a : Nat) (f : MemoryFilePage) (shared : Bool) (frame : Nat)
    (mem : Nat → Bytes) : FaultResult × Space :=
  let n := v.next
  let v := v.newPage (v.pages f.page).kind frame (mem frame)
  match v.table p 0 with
  | none => (.halted, v.setStatus p (.stuck (some n)))
  | some (x, _) =>
      let v := v.setBytes n (mem (v.pages x).addr)
      let flags := { f.flags with writable := true }
      let v := v.map p a n flags
      (.handled, v.setEntry p a (some (.fileMemory ⟨f.file, n, f.offset, false, flags⟩ shared)))

def stealFile (v : Space) (p a : Nat) (f : MemoryFilePage) (shared : Bool) : Space :=
  let v := v.setSharedPage f.file f.offset none
  let flags := { f.flags with writable := true }
  let v := v.map p a f.page flags
  v.setEntry p a (some (.fileMemory ⟨f.file, f.page, f.offset, false, flags⟩ shared))

noncomputable def fileMemoryFault (v : Space) (p a code frame : Nat) (f : MemoryFilePage)
    (shared : Bool) (mem : Nat → Bytes) : FaultResult × Space :=
  if code.testBit 1 ∧ f.copyOnWrite then
    if v.readers f.page > 1 then v.copyFile p a f shared frame mem
    else (.handled, v.stealFile p a f shared)
  else (.refused, v)

noncomputable def handlePageFault (m : Machine) (v : Space) (p addr code frame : Nat)
    (mem : Nat → Bytes) : FaultResult × Space :=
  if addr ≥ kernelStart ∨ addr = 0 then (.refused, v)
  else
    let a := addr / 2 ^ 12
    match v.maps p a with
    | none => (.refused, v)
    | some (.memory d shared) => v.memoryFault p a code frame d shared mem
    | some .empty => (.refused, v)
    | some (.anonymous flags zero) =>
        (v.resolveAnonymous .priv flags zero frame mem).anonymousFault m p a v.next false
    | some (.sharedAnonymous o) =>
        let v := v.resolveShared o frame mem
        v.anonymousFault m p a ((v.anons o).page.getD 0) true
    | some (.file f) => v.fileFault m p a frame f mem
    | some (.fileMemory f shared) => v.fileMemoryFault p a code frame f shared mem

noncomputable def pageFault (m : Machine) (v : Space) (p addr code frame : Nat)
    (mem : Nat → Bytes) : Space :=
  match v.handlePageFault m p addr code frame mem with
  | (.refused, v) => v.setStatus p (.stuck none)
  | (_, v) => v

/-! ## §5. `fork`. -/

def protectMemory (v : Space) (p a : Nat) (d : PagePtr) : Space :=
  let v := v.setFlags d { (v.pages d).flags with writable := false }
  let v := v.setCopyOnWrite d true
  v.map p a d (v.pages d).flags

def forkEntry (v : Space) (p child a : Nat) : Space :=
  match v.maps p a with
  | none => v
  | some (.memory d shared) =>
      let v :=
        if (v.pages d).flags.writable ∧ shared = false then v.protectMemory p a d else v
      v.mapPage child a d shared
  | some (.fileMemory f shared) =>
      let g := Kernel.protectFile f shared
      let v :=
        if f.flags.writable ∧ shared = false then
          (v.setEntry p a (some (.fileMemory g shared))).map p a f.page g.flags
        else v
      (v.setEntry child a (some (.fileMemory g shared))).map child a f.page g.flags
  | some e => v.setEntry child a (some e)

def fork (v : Space) (p child : Nat) (keys : List Nat) : Space :=
  keys.foldl (fun v a => v.forkEntry p child a) (v.setStatus child .running)

/-! ## §6. Runs. -/

def setByte (v : Space) (d : PagePtr) (o : Nat) (b : UInt8) : Space :=
  v.setBytes d (Function.update (v.pages d).bytes o b)

/-- `mem` holds the contents of every mapped page that has a frame. -/
def Shows (v : Space) (mem : Nat → Bytes) : Prop :=
  ∀ p a d flags, v.table p a = some (d, flags) → (v.pages d).addr ≠ 0 →
    mem (v.pages d).addr = (v.pages d).bytes

/-- The page table lets process `p` use page `d` at address `a`. -/
def Permits (v : Space) (p a : Nat) (d : PagePtr) (write : Bool) : Prop :=
  ∃ flags, v.table p a = some (d, flags) ∧ flags.userAccesible = true
    ∧ (write = true → flags.writable = true)

/-- **One event.** -/
inductive Step (m : Machine) : Space → Event → Space → Prop
  | nullPages {v : Space} {p a n : Nat} : v.status p = .running →
      Step m v (.nullPages p a n) (v.nullPages p a n)
  | allocPages {v : Space} {p a n flags prot : Nat} : v.status p = .running →
      Step m v (.allocPages p a n flags prot) (v.allocPages p a n flags prot)
  | filePages {v : Space} {p a n file offset : Nat} {shared write execute : Bool} :
      v.status p = .running →
      Step m v (.filePages p a n file offset shared write execute)
        (v.filePages p a n file offset shared write execute)
  | unmapPages {v : Space} {p a n : Nat} : v.status p = .running →
      Step m v (.unmapPages p a n) (v.unmapPages p a n)
  | pageFault {v : Space} {p addr code frame : Nat} {mem : Nat → Bytes} : v.status p = .running →
      v.Shows mem →
      Step m v (.pageFault p addr code frame) (v.pageFault m p addr code frame mem)
  | fork {v : Space} {p child : Nat} {keys : List Nat} : v.status p = .running →
      v.status child = .absent → keys.Nodup → (∀ a, a ∈ keys ↔ v.maps p a ≠ none) →
      Step m v (.fork p child keys) (v.fork p child keys)
  | userRead {v : Space} {p a o : Nat} {d : PagePtr} {b : UInt8} : v.status p = .running →
      v.Permits p a d false → ((v.pages d).addr ≠ 0 → b = (v.pages d).bytes o) →
      Step m v (.userRead p a o b) v
  | userWrite {v : Space} {p a o : Nat} {d : PagePtr} {b : UInt8} : v.status p = .running →
      v.Permits p a d true → Step m v (.userWrite p a o b) (v.setByte d o b)

end Space

end MierOS.Tasking
