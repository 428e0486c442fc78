/-
  MierOS.Memory.Liballoc
  **THE KERNEL'S `malloc`**: `liballoc.c`, over a memory of bytes.

  Every run of pages from `liballoc_alloc` is a major with its header in front;
  every allocation is a minor inside a major, again with its header in front.
  Majors and the minors of one major are doubly linked lists; the headers, the
  alignment bytes and the data of the callers share one memory.
-/
import MierOS.Lib.FlatMemory
import MierOS.Lib.Loop

namespace MierOS.Memory.Liballoc

open Lib Lib.FlatMemory

/-! ## §1. The records: `struct liballoc_major` and `struct liballoc_minor`. -/

namespace Major

def prev : Field := ⟨0, 8⟩
def next : Field := ⟨8, 8⟩
def pages : Field := ⟨16, 4⟩
def size : Field := ⟨20, 4⟩
def usage : Field := ⟨24, 4⟩
def first : Field := ⟨32, 8⟩

end Major

namespace Minor

def prev : Field := ⟨0, 8⟩
def next : Field := ⟨8, 8⟩
def block : Field := ⟨16, 8⟩
def magic : Field := ⟨24, 4⟩
def size : Field := ⟨28, 4⟩
def reqSize : Field := ⟨32, 4⟩

end Minor

/-- `sizeof(struct liballoc_major)`. -/
def majorSize : Nat := 40

/-- `sizeof(struct liballoc_minor)`. -/
def minorSize : Nat := 40

/-- `ALIGNMENT`. -/
def alignment : Nat := 16

/-- `ALIGN_INFO`. -/
def alignInfo : Nat := 16

/-- `LIBALLOC_MAGIC`. -/
def magic : Nat := 0xc001c0de

/-- `LIBALLOC_DEAD`. -/
def dead : Nat := 0xdeaddead

/-- `l_pageSize`. -/
def pageSize : Nat := 4096

/-- `l_pageCount`. -/
def pageCount : Nat := 16

/-! ## §2. Arithmetic. -/

/-- `unsigned int` subtraction. -/
def sub32 (a b : Nat) : Nat := (a + 0x100000000 - b % 0x100000000) % 0x100000000

/-- `uintptr_t` subtraction. -/
def sub64 (a b : Nat) : Nat :=
  (a + 0x10000000000000000 - b % 0x10000000000000000) % 0x10000000000000000

theorem sub32_eq {a b : Nat} (hle : b ≤ a) (ha : a < 0x100000000) : sub32 a b = a - b := by
  unfold sub32
  omega

theorem sub64_eq {a b : Nat} (hle : b ≤ a) (ha : a - b < 0x10000000000000000) :
    sub64 a b = a - b := by
  unfold sub64
  omega

theorem sub64_sub64 {a b c : Nat} (hle : b + c ≤ a) (ha : a - b < 0x10000000000000000) :
    sub64 (sub64 a b) c = a - (b + c) := by
  rw [sub64_eq (by omega) ha, sub64_eq (by omega) (by omega)]
  omega

/-- An `unsigned int` as an `int`. -/
def toInt32 (a : Nat) : Int := if a < 0x80000000 then a else (a : Int) - 0x100000000

/-- `ALIGN(ptr)`: the pointer and the memory with the alignment byte. -/
def align (m : FlatMemory) (ptr : Nat) : Nat × FlatMemory :=
  let ptr := ptr + alignInfo
  let diff := ptr % alignment
  let padding := if diff ≠ 0 then alignment - diff else diff
  let ptr := ptr + padding
  (ptr, m.store 1 (ptr - alignInfo) (padding + alignInfo))

/-- `UNALIGN(ptr)`. -/
def unalign (m : FlatMemory) (ptr : Nat) : Nat :=
  let diff := m.load 1 (sub64 ptr alignInfo)
  if diff < alignment + alignInfo then sub64 ptr diff else ptr

/-! ## §3. The state. -/

/-- `liballoc_alloc` and `liballoc_free`, with a state of their own. -/
structure Plugs (W : Type) where
  alloc : W → Nat → Nat × W
  free : W → Nat → Nat → W

/-- The memory and the static variables. -/
structure State (W : Type) where
  mem : FlatMemory
  memRoot : Nat
  bestBet : Nat
  allocated : Nat
  inuse : Nat
  warningCount : Nat
  errorCount : Nat
  possibleOverruns : Nat
  world : W

variable {W : Type}

namespace State

/-- No memory acquired yet. -/
def init (m : FlatMemory) (w : W) : State W := ⟨m, 0, 0, 0, 0, 0, 0, 0, w⟩

def get (s : State W) (addr : Nat) (f : Field) : Nat := s.mem.get addr f

def set (s : State W) (addr : Nat) (f : Field) (value : Nat) : State W :=
  { s with mem := s.mem.set addr f value }

/-- The page count `allocate_new_page(size)` asks for. -/
def pagesFor (size : Nat) : Nat :=
  let st := (size % 0x100000000 + majorSize) % 0x100000000
  let st := (st + minorSize) % 0x100000000
  let st := if st % pageSize = 0 then st / pageSize else st / pageSize + 1
  if st < pageCount then pageCount else st

/-- `allocate_new_page(size)`; null is 0. -/
def allocateNewPage (P : Plugs W) (s : State W) (size : Nat) : Nat × State W :=
  let st := pagesFor size
  match P.alloc s.world st with
  | (maj, w) =>
    let s := { s with world := w }
    if maj = 0 then (0, { s with warningCount := s.warningCount + 1 })
    else
      let s := s.set maj Major.prev 0
      let s := s.set maj Major.next 0
      let s := s.set maj Major.pages st
      let s := s.set maj Major.size (st * pageSize)
      let s := s.set maj Major.usage majorSize
      let s := s.set maj Major.first 0
      (maj, { s with
        allocated := (s.allocated + s.get maj Major.size) % 0x10000000000000000 })

/-! ## §4. `malloc`. -/

/-- `maj->usage += size + sizeof(struct liballoc_minor); l_inuse += size; ...; ALIGN(p)`,
which all cases end with. -/
def handOut (s : State W) (maj min size : Nat) : Nat × State W :=
  let s := s.set maj Major.usage (s.get maj Major.usage + (size + minorSize))
  let s := { s with inuse := (s.inuse + size) % 0x10000000000000000 }
  match align s.mem (min + minorSize) with
  | (p, mem) => (p, { s with mem := mem })

/-- `CASE 2: It's a brand new block.` -/
def case2 (s : State W) (maj reqSize size : Nat) : Nat × State W :=
  let s := s.set maj Major.first (maj + majorSize)
  let first := s.get maj Major.first
  let s := s.set first Minor.magic magic
  let s := s.set first Minor.prev 0
  let s := s.set first Minor.next 0
  let s := s.set first Minor.block maj
  let s := s.set first Minor.size size
  let s := s.set first Minor.reqSize reqSize
  s.handOut maj first size

/-- `CASE 3: Block in use and enough space at the start of the block.` -/
def case3 (s : State W) (maj reqSize size : Nat) : Nat × State W :=
  let old := s.get maj Major.first
  let s := s.set old Minor.prev (maj + majorSize)
  let s := s.set (s.get old Minor.prev) Minor.next old
  let s := s.set maj Major.first (s.get old Minor.prev)
  let first := s.get maj Major.first
  let s := s.set first Minor.magic magic
  let s := s.set first Minor.prev 0
  let s := s.set first Minor.block maj
  let s := s.set first Minor.size size
  let s := s.set first Minor.reqSize reqSize
  s.handOut maj first size

/-- `CASE 4.1: End of minors in a block. Space from last and end?` -/
def case41 (s : State W) (maj last reqSize size : Nat) : Nat × State W :=
  let s := s.set last Minor.next (last + minorSize + s.get last Minor.size)
  let s := s.set (s.get last Minor.next) Minor.prev last
  let min := s.get last Minor.next
  let s := s.set min Minor.next 0
  let s := s.set min Minor.magic magic
  let s := s.set min Minor.block maj
  let s := s.set min Minor.size size
  let s := s.set min Minor.reqSize reqSize
  s.handOut maj min size

/-- `CASE 4.2: Is there space between two minors?` -/
def case42 (s : State W) (maj min reqSize size : Nat) : Nat × State W :=
  let newMin := min + minorSize + s.get min Minor.size
  let s := s.set newMin Minor.magic magic
  let s := s.set newMin Minor.next (s.get min Minor.next)
  let s := s.set newMin Minor.prev min
  let s := s.set newMin Minor.size size
  let s := s.set newMin Minor.reqSize reqSize
  let s := s.set newMin Minor.block maj
  let s := s.set (s.get min Minor.next) Minor.prev newMin
  let s := s.set min Minor.next newMin
  s.handOut maj newMin size

end State

/-- Where the two loops of `malloc` stand: at a major, or at a minor of it. -/
inductive Pc
  | major
  | minor (min : Nat)
  deriving Repr, DecidableEq

/-- The loops of `malloc`. -/
structure Walk (W : Type) where
  s : State W
  maj : Nat
  startedBet : Bool
  bestSize : Nat
  pc : Pc

namespace Walk

/-- From CASE 2 to the head of the loop of CASE 4. -/
def enter (reqSize size : Nat) (c : Walk W) : Walk W ⊕ (Nat × State W) :=
  let first := c.s.get c.maj Major.first
  if first = 0 then .inr (c.s.case2 c.maj reqSize size)
  else if sub64 (sub64 first c.maj) majorSize ≥ size + minorSize then
    .inr (c.s.case3 c.maj reqSize size)
  else .inl { c with pc := .minor first }

/-- `maj->next = allocate_new_page(size)` and on to the new major with `go`; the loop
ends where there is no memory. -/
def grow (P : Plugs W) (size : Nat) (c : Walk W) (go : Walk W → Walk W ⊕ (Nat × State W)) :
    Walk W ⊕ (Nat × State W) :=
  match c.s.allocateNewPage P size with
  | (new, s) =>
    let s := s.set c.maj Major.next new
    if new = 0 then .inr (0, s)
    else go { c with s := s.set new Major.prev c.maj, maj := new, pc := .major }

/-- One round of `while(maj != NULL)` up to CASE 3, or one of `while(min != NULL)` with
CASE 5 at its end. -/
def round (P : Plugs W) (reqSize size : Nat) (c : Walk W) : Walk W ⊕ (Nat × State W) :=
  match c.pc with
  | .major =>
    if c.maj = 0 then .inr (0, c.s)
    else
      let diff := sub32 (c.s.get c.maj Major.size) (c.s.get c.maj Major.usage)
      let c := if c.bestSize < diff then
          { c with s := { c.s with bestBet := c.maj }, bestSize := diff }
        else c
      if diff < size + minorSize then
        -- CASE 1: There is not enough space in this major block.
        if c.s.get c.maj Major.next ≠ 0 then .inl { c with maj := c.s.get c.maj Major.next }
        else if c.startedBet then .inl { c with maj := c.s.memRoot, startedBet := false }
        else c.grow P size (enter reqSize size)
      else c.enter reqSize size
  | .minor min =>
    if min ≠ 0 then
      let next := c.s.get min Minor.next
      if next = 0 then
        let diff := sub64 (c.maj + c.s.get c.maj Major.size) min
        let diff := sub64 (sub64 diff minorSize) (c.s.get min Minor.size)
        if diff ≥ size + minorSize then .inr (c.s.case41 c.maj min reqSize size)
        else .inl { c with pc := .minor next }
      else
        let diff := sub64 (sub64 (sub64 next min) minorSize) (c.s.get min Minor.size)
        if diff ≥ size + minorSize then .inr (c.s.case42 c.maj min reqSize size)
        else .inl { c with pc := .minor next }
    else
      -- CASE 5: Block full! Ensure next block and loop.
      if c.s.get c.maj Major.next = 0 then
        if c.startedBet then .inl { c with maj := c.s.memRoot, startedBet := false, pc := .major }
        else c.grow P size .inl
      else .inl { c with maj := c.s.get c.maj Major.next, pc := .major }

end Walk

namespace State

/-- Where the search starts: at the best bet when it has room, else at the root. -/
def startWalk (s : State W) (size : Nat) : Walk W :=
  let bestSize :=
    if s.bestBet ≠ 0 then sub32 (s.get s.bestBet Major.size) (s.get s.bestBet Major.usage) else 0
  if s.bestBet ≠ 0 ∧ bestSize > size + minorSize then ⟨s, s.bestBet, true, bestSize, .major⟩
  else ⟨s, s.memRoot, false, bestSize, .major⟩

/-- `malloc` once the size is known not to be 0. -/
def mallocSize (P : Plugs W) (fuel : Nat) (s : State W) (reqSize size : Nat) :
    Option (Nat × State W) :=
  let s :=
    if s.memRoot = 0 then
      match s.allocateNewPage P size with
      | (root, s) => { s with memRoot := root }
    else s
  if s.memRoot = 0 then some (0, s)
  else Loop.run (Walk.round P reqSize size) fuel (s.startWalk size)

/-- `malloc(req_size)`: the pointer, 0 for null; without a result when `fuel` rounds of
its loops are not enough. -/
def malloc (P : Plugs W) (fuel : Nat) (s : State W) (reqSize : Nat) : Option (Nat × State W) :=
  let size := (reqSize + (alignment + alignInfo)) % 0x10000000000000000
  if size = 0 then
    -- return malloc(1)
    mallocSize P fuel { s with warningCount := s.warningCount + 1 } 1 (1 + (alignment + alignInfo))
  else mallocSize P fuel s reqSize size

/-! ## §5. `free`, `calloc`, `realloc`. -/

/-- `Check for overrun errors.`, for a header without the magic number. -/
def badMagic (s : State W) (found : Nat) : State W :=
  let s := { s with errorCount := s.errorCount + 1 }
  if found % 0x1000000 = magic % 0x1000000 ∨ found % 0x10000 = magic % 0x10000
      ∨ found % 0x100 = magic % 0x100 then
    { s with possibleOverruns := s.possibleOverruns + 1 }
  else s

/-- Take the minor at `min` out of the list of `maj`. -/
def unlinkMinor (s : State W) (maj min : Nat) : State W :=
  let s := if s.get min Minor.next ≠ 0 then
      s.set (s.get min Minor.next) Minor.prev (s.get min Minor.prev)
    else s
  let s := if s.get min Minor.prev ≠ 0 then
      s.set (s.get min Minor.prev) Minor.next (s.get min Minor.next)
    else s
  if s.get min Minor.prev = 0 then s.set maj Major.first (s.get min Minor.next) else s

/-- Take the major at `maj` out of the list of majors. -/
def unlinkMajor (s : State W) (maj : Nat) : State W :=
  let s := if s.get maj Major.prev ≠ 0 then
      s.set (s.get maj Major.prev) Major.next (s.get maj Major.next)
    else s
  if s.get maj Major.next ≠ 0 then
    s.set (s.get maj Major.next) Major.prev (s.get maj Major.prev)
  else s

/-- `Block completely unused.` -/
def dropMajor (P : Plugs W) (s : State W) (maj : Nat) : State W :=
  let s := if s.memRoot = maj then { s with memRoot := s.get maj Major.next } else s
  let s := if s.bestBet = maj then { s with bestBet := 0 } else s
  let s := s.unlinkMajor maj
  let s := { s with
    allocated := sub64 s.allocated (s.get maj Major.size) }
  { s with world := P.free s.world maj (s.get maj Major.pages) }

/-- The end of `free`: a major without minors goes, another may become the best bet. -/
def settle (P : Plugs W) (s : State W) (maj : Nat) : State W :=
  if s.get maj Major.first = 0 then s.dropMajor P maj
  else if s.bestBet ≠ 0 then
    let bestSize := toInt32 (sub32 (s.get s.bestBet Major.size) (s.get s.bestBet Major.usage))
    let majSize := toInt32 (sub32 (s.get maj Major.size) (s.get maj Major.usage))
    if majSize > bestSize then { s with bestBet := maj } else s
  else s

/-- `free(ptr)`. -/
def free (P : Plugs W) (s : State W) (ptr : Nat) : State W :=
  if ptr = 0 then { s with warningCount := s.warningCount + 1 }
  else
    let min := sub64 (unalign s.mem ptr) minorSize
    if s.get min Minor.magic ≠ magic then s.badMagic (s.get min Minor.magic)
    else
      let maj := s.get min Minor.block
      let s := { s with inuse := sub64 s.inuse (s.get min Minor.size) }
      let s := s.set maj Major.usage
        (sub64 (s.get maj Major.usage) (s.get min Minor.size + minorSize))
      let s := s.set min Minor.magic dead
      (s.unlinkMinor maj min).settle P maj

/-- `liballoc_memset(s, c, n)`: a write to the null page faults, and the counter of type
`unsigned int` never reaches an `n` of 2^32 or more. -/
def liballocMemset (m : FlatMemory) (dest : Nat) (c : BitVec 8) (n : Nat) : Option FlatMemory :=
  if n = 0 then some m
  else if dest = 0 ∨ 0x100000000 ≤ n then none
  else some fun x => if dest ≤ x ∧ x < dest + n then c else m x

/-- `liballoc_memcpy(s1, s2, n)`: four bytes at a time, then the rest; a write to the null
page faults. -/
def liballocMemcpy (m : FlatMemory) (dest src n : Nat) : Option FlatMemory :=
  if n = 0 then some m
  else if dest = 0 then none
  else
    let words := n / 4
    some (copyUnits 1 (n % 4) (copyUnits 4 words m dest src) (dest + words * 4) (src + words * 4))

/-- `calloc(nobj, size)`, with `int real_size`. -/
def calloc (P : Plugs W) (fuel : Nat) (s : State W) (nobj size : Nat) : Option (Nat × State W) :=
  let realSize := nobj * size % 0x100000000
  -- the `int` extended to a `size_t`
  let realSize :=
    if realSize < 0x80000000 then realSize else realSize + 0xffffffff00000000
  (s.malloc P fuel realSize).bind fun (p, s) =>
    (liballocMemset s.mem p 0 realSize).map fun mem => (p, { s with mem := mem })

/-- `realloc(p, size)`. -/
def realloc (P : Plugs W) (fuel : Nat) (s : State W) (p size : Nat) : Option (Nat × State W) :=
  if size = 0 then some (0, s.free P p)
  else if p = 0 then s.malloc P fuel size
  else
    let min := sub64 (unalign s.mem p) minorSize
    if s.get min Minor.magic ≠ magic then some (0, s.badMagic (s.get min Minor.magic))
    else
      let realSize := s.get min Minor.reqSize
      if realSize ≥ size then some (p, s.set min Minor.reqSize size)
      else
        (s.malloc P fuel size).bind fun (ptr, s) =>
          (liballocMemcpy s.mem ptr p realSize).map fun mem =>
            (ptr, { s with mem := mem }.free P p)

end State

end MierOS.Memory.Liballoc
