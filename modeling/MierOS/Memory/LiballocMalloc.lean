/-
  MierOS.Memory.LiballocMalloc
  **WHAT `malloc` DOES TO THE HEAP.**

  The four places where `malloc` hands out a block write the same fields, in
  different orders; `Put.of_stores` says what any such order leaves in memory.
-/
import MierOS.Memory.LiballocHeap

namespace MierOS.Memory.Liballoc

open Lib Lib.FlatMemory Lib.Arena Lib.DoubleLinks

variable {W : Type}

/-! ## §1. The stores that put a block in. -/

/-- Where the fields of the headers stand. -/
theorem fields : Minor.prev = ⟨0, 8⟩ ∧ Minor.next = ⟨8, 8⟩ ∧ Minor.block = ⟨16, 8⟩
    ∧ Minor.magic = ⟨24, 4⟩ ∧ Minor.size = ⟨28, 4⟩ ∧ Minor.reqSize = ⟨32, 4⟩
    ∧ Major.usage = ⟨24, 4⟩ ∧ Major.first = ⟨32, 8⟩ :=
  ⟨rfl, rfl, rfl, rfl, rfl, rfl, rfl, rfl⟩

/-- The fields that are written for a block between `pred` and `succ`. -/
def putStores (m : FlatMemory) (base pred succ : Nat) (b : Block) : List Store :=
  [Store.field b.addr Minor.prev pred, Store.field b.addr Minor.next succ,
    Store.field b.addr Minor.block base, Store.field b.addr Minor.magic magic,
    Store.field b.addr Minor.size b.size, Store.field b.addr Minor.reqSize b.req,
    Store.field base Major.usage (m.get base Major.usage + (b.size + 40)),
    if pred = 0 then Store.field base Major.first b.addr else Store.field pred Minor.next b.addr,
    ⟨b.ptr - 16, 1, b.ptr - (b.addr + 40)⟩]
  ++ if succ = 0 then [] else [Store.field succ Minor.prev b.addr]

theorem confined_of_stores {m : FlatMemory} {base pred succ : Nat} {b : Block} {ws : List Store}
    (hws : ∀ w, w ∈ ws ↔ w ∈ putStores m base pred succ b) :
    Confined m (storeAll m ws) base pred succ b := by
  intro x hheader hbyte hcount hfirst hpred hsucc
  -- every store is to one of the places the frame names
  refine storeAll_out fun w hw => ?_
  have hw := (hws w).mp hw
  unfold putStores at hw
  rcases List.mem_append.mp hw with hw | hw
  · simp only [List.mem_cons, List.not_mem_nil, or_false] at hw
    rcases hw with rfl | rfl | rfl | rfl | rfl | rfl | rfl | rfl | rfl
    · show x < b.addr + 0 ∨ b.addr + 0 + 8 ≤ x
      omega
    · show x < b.addr + 8 ∨ b.addr + 8 + 8 ≤ x
      omega
    · show x < b.addr + 16 ∨ b.addr + 16 + 8 ≤ x
      omega
    · show x < b.addr + 24 ∨ b.addr + 24 + 4 ≤ x
      omega
    · show x < b.addr + 28 ∨ b.addr + 28 + 4 ≤ x
      omega
    · show x < b.addr + 32 ∨ b.addr + 32 + 4 ≤ x
      omega
    · exact hcount
    · by_cases hzero : pred = 0
      · rw [if_pos hzero]
        exact hfirst hzero
      · rw [if_neg hzero]
        exact hpred hzero
    · show x < b.ptr - 16 ∨ b.ptr - 16 + 1 ≤ x
      omega
  · by_cases hzero : succ = 0
    · rw [if_pos hzero] at hw
      exact absurd hw List.not_mem_nil
    · rw [if_neg hzero, List.mem_singleton] at hw
      rw [hw]
      exact hsucc hzero

/-- **The stores in any order.** -/
theorem Put.of_stores {m : FlatMemory} {base pred succ : Nat} {b : Block} {ws : List Store}
    (hapart : ws.Pairwise Store.Apart) (hws : ∀ w, w ∈ ws ↔ w ∈ putStores m base pred succ b)
    (hbase : base < 0x10000000000000000) (hpred : pred < 0x10000000000000000)
    (hsucc : succ < 0x10000000000000000) (haddr : b.addr < 0x10000000000000000)
    (hsize : b.size < 0x100000000) (hreq : b.req ≤ b.size) :
    Put m (storeAll m ws) base pred succ b := by
  obtain ⟨hptr, hptr'⟩ := alignPtr_bounds (b.addr + 40)
  have hptr' : b.ptr ≤ b.addr + 40 + 31 := hptr'
  have hbyte : b.ptr - (b.addr + 40) < 256 ^ 1 := by omega
  have hreq' : b.req < 256 ^ 4 := Nat.lt_of_le_of_lt hreq hsize
  have hload : ∀ w ∈ putStores m base pred succ b, w.value < 256 ^ w.width →
      (storeAll m ws).load w.width w.addr = w.value := fun w hw hlt =>
    (load_storeAll hapart ((hws w).mpr hw)).trans (Nat.mod_eq_of_lt hlt)
  refine ⟨?_, ?_, ⟨?_, ?_, ?_, ?_, ?_⟩, ?_, ?_, ?_, ?_, confined_of_stores hws⟩
  · exact hload (Store.field b.addr Minor.prev pred) (by simp [putStores]) hpred
  · exact hload (Store.field b.addr Minor.next succ) (by simp [putStores]) hsucc
  · exact hload (Store.field b.addr Minor.block base) (by simp [putStores]) hbase
  · exact hload (Store.field b.addr Minor.magic magic) (by simp [putStores])
      (show magic < 256 ^ 4 by decide)
  · exact hload (Store.field b.addr Minor.size b.size) (by simp [putStores]) hsize
  · exact hload (Store.field b.addr Minor.reqSize b.req) (by simp [putStores]) hreq'
  · exact hload ⟨b.ptr - 16, 1, b.ptr - (b.addr + 40)⟩ (by simp [putStores]) hbyte
  · exact load_storeAll hapart ((hws (Store.field base Major.usage
      (m.get base Major.usage + (b.size + 40)))).mpr (by simp [putStores]))
  · intro hzero
    exact hload (Store.field base Major.first b.addr) (by simp [putStores, hzero]) haddr
  · intro hne
    exact hload (Store.field pred Minor.next b.addr) (by simp [putStores, hne]) haddr
  · intro hne
    exact hload (Store.field succ Minor.prev b.addr) (by simp [putStores, hne]) haddr

/-! ## §2. The four cases. -/

/-- `r` is what is returned when block `b` has been put in, between `pred` and `succ`. -/
structure Places (s : State W) (base pred succ : Nat) (b : Block) (r : Nat × State W) : Prop where
  ptr : r.1 = b.ptr
  put : Put s.mem r.2.mem base pred succ b
  state : r.2 = { s with
    mem := r.2.mem
    inuse := (s.inuse + b.size) % 0x10000000000000000 }

theorem Places.of_eq {s : State W} {base pred succ : Nat} {b : Block} {r : Nat × State W}
    {mem : FlatMemory} (hr : r = (alignPtr (b.addr + 40), { s with
      mem := mem
      inuse := (s.inuse + b.size) % 0x10000000000000000 }))
    (hput : Put s.mem mem base pred succ b) : Places s base pred succ b r := by
  subst hr
  exact ⟨rfl, hput, rfl⟩

section Cases

variable {s : State W} {maj req size addr : Nat}

theorem handOut_eq (s : State W) (maj min size : Nat) :
    s.handOut maj min size = (alignPtr (min + 40), { s with
      mem := storeAll s.mem [Store.field maj Major.usage (s.get maj Major.usage + (size + 40)),
        ⟨alignPtr (min + 40) - 16, 1, alignPtr (min + 40) - (min + 40)⟩]
      inuse := (s.inuse + size) % 0x10000000000000000 }) := by
  unfold State.handOut
  simp only [align_eq]
  rfl

theorem case2_places (hmaj : 0 < maj) (haddr : maj + 40 + 40 + size ≤ 0x10000000000000000)
    (hroom : req + 32 ≤ size) (hsize : size < 0x100000000) :
    Places s maj 0 0 ⟨maj + 40, size, req⟩ (s.case2 maj req size) := by
  obtain ⟨hptr, hptr'⟩ := alignPtr_bounds (maj + 40 + 40)
  have heq : s.case2 maj req size = (alignPtr (maj + 40 + 40), { s with
      mem := storeAll s.mem [Store.field maj Major.first (maj + 40),
        Store.field (maj + 40) Minor.magic magic, Store.field (maj + 40) Minor.prev 0,
        Store.field (maj + 40) Minor.next 0, Store.field (maj + 40) Minor.block maj,
        Store.field (maj + 40) Minor.size size, Store.field (maj + 40) Minor.reqSize req,
        Store.field maj Major.usage (s.get maj Major.usage + (size + 40)),
        ⟨alignPtr (maj + 40 + 40) - 16, 1, alignPtr (maj + 40 + 40) - (maj + 40 + 40)⟩]
      inuse := (s.inuse + size) % 0x10000000000000000 }) := by
    have hfirst : (s.set maj Major.first (maj + majorSize)).get maj Major.first = maj + 40 := by
      show FlatMemory.get (FlatMemory.set _ _ _ _) _ _ = _
      rw [get_set_same]
      exact Nat.mod_eq_of_lt (by
        show maj + 40 < 0x10000000000000000
        omega)
    unfold State.case2
    simp only [handOut_eq, hfirst]
    simp only [State.get, State.set, FlatMemory.get, FlatMemory.set, fields, Nat.add_zero]
    simp (disch := omega) only [load_store_of_disjoint]
    rfl
  refine Places.of_eq heq (Put.of_stores ?_ ?_ (by omega) (by omega) (by omega)
    (by show maj + 40 < _; omega) hsize (by show req ≤ size; omega))
  · simp only [List.pairwise_cons, List.mem_cons, Store.Apart, Store.field, fields,
      forall_eq_or_imp, List.not_mem_nil, false_imp_iff, implies_true, and_true, List.Pairwise.nil]
    omega
  · intro w
    unfold putStores
    rw [if_pos rfl, if_pos rfl]
    simp only [List.append_nil, List.mem_cons, Block.ptr, minorSize, List.not_mem_nil, or_false]
    constructor <;> rintro (h | h | h | h | h | h | h | h | h) <;> simp [h, State.get]

theorem case3_places {succ : Nat} (hmaj : 0 < maj) (hfirst : s.get maj Major.first = succ)
    (haddr : maj + 40 + 40 + size ≤ succ) (hsucc : succ < 0x10000000000000000)
    (hroom : req + 32 ≤ size) (hsize : size < 0x100000000) :
    Places s maj 0 succ ⟨maj + 40, size, req⟩ (s.case3 maj req size) := by
  obtain ⟨hptr, hptr'⟩ := alignPtr_bounds (maj + 40 + 40)
  have heq : s.case3 maj req size = (alignPtr (maj + 40 + 40), { s with
      mem := storeAll s.mem [Store.field succ Minor.prev (maj + 40),
        Store.field (maj + 40) Minor.next succ, Store.field maj Major.first (maj + 40),
        Store.field (maj + 40) Minor.magic magic, Store.field (maj + 40) Minor.prev 0,
        Store.field (maj + 40) Minor.block maj, Store.field (maj + 40) Minor.size size,
        Store.field (maj + 40) Minor.reqSize req,
        Store.field maj Major.usage (s.get maj Major.usage + (size + 40)),
        ⟨alignPtr (maj + 40 + 40) - 16, 1, alignPtr (maj + 40 + 40) - (maj + 40 + 40)⟩]
      inuse := (s.inuse + size) % 0x10000000000000000 }) := by
    have hnew : (maj + 40) % 256 ^ 8 = maj + 40 := Nat.mod_eq_of_lt (by
      show maj + 40 < 0x10000000000000000
      omega)
    -- what the code reads back of its own stores
    have hback : ∀ m : FlatMemory, (m.set succ Minor.prev (maj + 40)).get succ Minor.prev
        = maj + 40 := fun m => get_set_same.trans hnew
    have hkept : ∀ m : FlatMemory, ((m.set succ Minor.prev (maj + 40)).set (maj + 40) Minor.next
        succ).get succ Minor.prev = maj + 40 := by
      intro m
      rw [get_set_of_disjoint, hback]
      show maj + 40 + 8 + 8 ≤ succ + 0 ∨ succ + 0 + 8 ≤ maj + 40 + 8
      omega
    have hhead : ∀ m : FlatMemory, (m.set maj Major.first (maj + 40)).get maj Major.first
        = maj + 40 := fun m => get_set_same.trans hnew
    unfold State.case3
    simp only [handOut_eq, State.get, State.set, majorSize, show s.mem.get maj Major.first = succ from hfirst,
      hback, hkept, hhead]
    simp only [FlatMemory.get, FlatMemory.set, fields, Nat.add_zero]
    simp (disch := omega) only [load_store_of_disjoint]
    rfl
  refine Places.of_eq heq (Put.of_stores ?_ ?_ (by omega) (by omega) hsucc
    (by show maj + 40 < _; omega) hsize (by show req ≤ size; omega))
  · simp only [List.pairwise_cons, List.mem_cons, Store.Apart, Store.field, fields,
      forall_eq_or_imp, List.not_mem_nil, false_imp_iff, implies_true, and_true, List.Pairwise.nil]
    omega
  · intro w
    unfold putStores
    rw [if_pos rfl, if_neg (by omega)]
    simp only [List.cons_append, List.nil_append, List.mem_cons, Block.ptr, minorSize,
      List.not_mem_nil, or_false]
    constructor <;> rintro (h | h | h | h | h | h | h | h | h | h) <;> simp [h, State.get]

theorem case41_places {last : Nat} (hmaj : 0 < maj) (hlast : maj + 40 ≤ last)
    (haddr : last + 40 + s.get last Minor.size = addr)
    (hstop : addr + 40 + size ≤ 0x10000000000000000) (hroom : req + 32 ≤ size)
    (hsize : size < 0x100000000) :
    Places s maj last 0 ⟨addr, size, req⟩ (s.case41 maj last req size) := by
  obtain ⟨hptr, hptr'⟩ := alignPtr_bounds (addr + 40)
  have heq : s.case41 maj last req size = (alignPtr (addr + 40), { s with
      mem := storeAll s.mem [Store.field last Minor.next addr, Store.field addr Minor.prev last,
        Store.field addr Minor.next 0, Store.field addr Minor.magic magic,
        Store.field addr Minor.block maj, Store.field addr Minor.size size,
        Store.field addr Minor.reqSize req,
        Store.field maj Major.usage (s.get maj Major.usage + (size + 40)),
        ⟨alignPtr (addr + 40) - 16, 1, alignPtr (addr + 40) - (addr + 40)⟩]
      inuse := (s.inuse + size) % 0x10000000000000000 }) := by
    have hoff : last + minorSize + s.get last Minor.size = addr := haddr
    have hnew : addr % 256 ^ 8 = addr := Nat.mod_eq_of_lt (by
      show addr < 0x10000000000000000
      omega)
    have hback : ∀ m : FlatMemory, (m.set last Minor.next addr).get last Minor.next = addr :=
      fun m => get_set_same.trans hnew
    have hkept : ∀ m : FlatMemory, ((m.set last Minor.next addr).set addr Minor.prev last).get
        last Minor.next = addr := by
      intro m
      rw [get_set_of_disjoint, hback]
      show addr + 0 + 8 ≤ last + 8 ∨ last + 8 + 8 ≤ addr + 0
      omega
    unfold State.case41
    simp only [handOut_eq, hoff]
    simp only [State.get, State.set, hback, hkept]
    simp only [FlatMemory.get, FlatMemory.set, fields, Nat.add_zero]
    simp (disch := omega) only [load_store_of_disjoint]
    rfl
  refine Places.of_eq heq (Put.of_stores ?_ ?_ (by omega) (by omega) (by omega)
    (by show addr < _; omega) hsize (by show req ≤ size; omega))
  · simp only [List.pairwise_cons, List.mem_cons, Store.Apart, Store.field, fields,
      forall_eq_or_imp, List.not_mem_nil, false_imp_iff, implies_true, and_true, List.Pairwise.nil]
    omega
  · intro w
    unfold putStores
    rw [if_neg (by omega), if_pos rfl]
    simp only [List.append_nil, List.mem_cons, Block.ptr, minorSize, List.not_mem_nil, or_false]
    constructor <;> rintro (h | h | h | h | h | h | h | h | h) <;> simp [h, State.get]

theorem case42_places {min succ : Nat} (hmaj : 0 < maj) (hmin : maj + 40 ≤ min)
    (hnext : s.get min Minor.next = succ) (haddr : min + 40 + s.get min Minor.size = addr)
    (hstop : addr + 40 + size ≤ succ) (hsucc : succ < 0x10000000000000000)
    (hroom : req + 32 ≤ size) (hsize : size < 0x100000000) :
    Places s maj min succ ⟨addr, size, req⟩ (s.case42 maj min req size) := by
  obtain ⟨hptr, hptr'⟩ := alignPtr_bounds (addr + 40)
  have heq : s.case42 maj min req size = (alignPtr (addr + 40), { s with
      mem := storeAll s.mem [Store.field addr Minor.magic magic, Store.field addr Minor.next succ,
        Store.field addr Minor.prev min, Store.field addr Minor.size size,
        Store.field addr Minor.reqSize req, Store.field addr Minor.block maj,
        Store.field succ Minor.prev addr, Store.field min Minor.next addr,
        Store.field maj Major.usage (s.get maj Major.usage + (size + 40)),
        ⟨alignPtr (addr + 40) - 16, 1, alignPtr (addr + 40) - (addr + 40)⟩]
      inuse := (s.inuse + size) % 0x10000000000000000 }) := by
    have hoff : min + minorSize + s.get min Minor.size = addr := haddr
    unfold State.case42
    simp only [handOut_eq, hoff]
    simp only [State.get, State.set, FlatMemory.get, FlatMemory.set, fields, Nat.add_zero] at *
    simp (disch := omega) only [load_store_of_disjoint, hnext]
    rfl
  refine Places.of_eq heq (Put.of_stores ?_ ?_ (by omega) (by omega) hsucc
    (by show addr < _; omega) hsize (by show req ≤ size; omega))
  · simp only [List.pairwise_cons, List.mem_cons, Store.Apart, Store.field, fields,
      forall_eq_or_imp, List.not_mem_nil, false_imp_iff, implies_true, and_true, List.Pairwise.nil]
    omega
  · intro w
    unfold putStores
    rw [if_neg (by omega), if_neg (by omega)]
    simp only [List.cons_append, List.nil_append, List.mem_cons, Block.ptr, minorSize,
      List.not_mem_nil, or_false]
    constructor <;> rintro (h | h | h | h | h | h | h | h | h | h) <;> simp [h, State.get]

end Cases

/-! ## §3. New pages. -/

section NewPages

variable {P : Plugs W} {s : State W} {size a : Nat} {w : W}

/-- The largest `req_size` for which no number of `malloc` wraps at 2^32. -/
def maxRequest : Nat := 0x100000000 - 4208

/-- **The pages that are asked for** hold the block and both headers. -/
theorem pagesFor_bounds (hsize : size ≤ maxRequest + 32) :
    16 ≤ State.pagesFor size ∧ size + 80 ≤ State.pagesFor size * pageSize
      ∧ State.pagesFor size * pageSize < 0x100000000 := by
  unfold maxRequest at hsize
  have hwrap : ((size % 0x100000000 + majorSize) % 0x100000000 + minorSize) % 0x100000000
      = size + 80 := by
    show ((size % 0x100000000 + 40) % 0x100000000 + 40) % 0x100000000 = _
    omega
  unfold State.pagesFor
  simp only [hwrap]
  show 16 ≤ (if (if (size + 80) % 4096 = 0 then (size + 80) / 4096 else (size + 80) / 4096 + 1) < 16
    then 16 else _) ∧ _
  unfold pageSize pageCount
  split <;> split <;> omega

/-- The state with new pages that are in no list yet. -/
structure NewPages (s s' : State W) (a n : Nat) (w : W) : Prop where
  chunk : ChunkAt s'.mem ⟨a, n, []⟩
  prev : s'.get a Major.prev = 0
  next : s'.get a Major.next = 0
  frame : ∀ x, x < a ∨ a + 40 ≤ x → s'.mem x = s.mem x
  state : s' = { s with
    mem := s'.mem
    world := w
    allocated := (s.allocated + n * pageSize) % 0x10000000000000000 }

theorem allocateNewPage_null (halloc : P.alloc s.world (State.pagesFor size) = (0, w)) :
    s.allocateNewPage P size = (0, { s with world := w, warningCount := s.warningCount + 1 }) := by
  unfold State.allocateNewPage
  simp only [halloc]
  rw [if_pos trivial]

theorem allocateNewPage_some (hsize : size ≤ maxRequest + 32)
    (halloc : P.alloc s.world (State.pagesFor size) = (a, w)) (ha : a ≠ 0) :
    ∃ s', s.allocateNewPage P size = (a, s') ∧ NewPages s s' a (State.pagesFor size) w := by
  obtain ⟨hmin, hfits, hn⟩ := pagesFor_bounds hsize
  unfold State.allocateNewPage
  simp only [halloc]
  rw [if_neg ha]
  generalize State.pagesFor size = n at *
  let ws := [Store.field a Major.prev 0, Store.field a Major.next 0, Store.field a Major.pages n,
    Store.field a Major.size (n * pageSize), Store.field a Major.usage majorSize,
    Store.field a Major.first 0]
  have hn' : n < 0x100000000 := by
    unfold pageSize at hn
    omega
  have hapart : ws.Pairwise Store.Apart := by
    simp only [ws, List.pairwise_cons, List.mem_cons, Store.Apart, Store.field, Major.prev,
      Major.next, Major.pages, Major.size, Major.usage, Major.first, forall_eq_or_imp,
      List.not_mem_nil, false_imp_iff, implies_true, and_true, List.Pairwise.nil]
    omega
  have hload : ∀ f v, Store.field a f v ∈ ws → v < 256 ^ f.width →
      (storeAll s.mem ws).get a f = v := fun f v hw hlt =>
    (load_storeAll hapart hw).trans (Nat.mod_eq_of_lt hlt)
  have hprev := hload Major.prev 0 (by simp [ws]) (by decide)
  have hnext := hload Major.next 0 (by simp [ws]) (by decide)
  have hpages := hload Major.pages n (by simp [ws]) hn'
  have hsize' := hload Major.size (n * pageSize) (by simp [ws]) hn
  have husage := hload Major.usage majorSize (by simp [ws]) (by decide)
  have hfirst := hload Major.first 0 (by simp [ws]) (by decide)
  have hchunk : ChunkAt (storeAll s.mem ws) ⟨a, n, []⟩ :=
    ⟨hpages, hsize', husage, hfirst, trivial, fun b hb => absurd hb List.not_mem_nil⟩
  refine ⟨{ s with
    mem := storeAll s.mem ws
    world := w
    allocated := (s.allocated + n * pageSize) % 0x10000000000000000 }, ?_, ?_⟩
  · have hmem : (((((s.mem.set a Major.prev 0).set a Major.next 0).set a Major.pages n).set a
        Major.size (n * pageSize)).set a Major.usage majorSize).set a Major.first 0
          = storeAll s.mem ws := rfl
    simp only [State.set, State.get]
    rw [hmem, hsize']
  · refine ⟨hchunk, hprev, hnext, ?_, rfl⟩
    intro x hx
    refine storeAll_out fun v hv => ?_
    simp only [ws, List.mem_cons, List.not_mem_nil, or_false] at hv
    rcases hv with rfl | rfl | rfl | rfl | rfl | rfl <;>
      simp only [Store.field, Major.prev, Major.next, Major.pages, Major.size, Major.usage,
        Major.first] <;> omega

end NewPages

/-! ## §4. Edits of the heap. -/

/-- The block a request gets at an address. -/
def newBlock (addr req : Nat) : Block := ⟨addr, req + 32, req⟩

/-- The pages of `n` at `a` are none of the heap's. -/
structure FreshAt (h : List Chunk) (a n : Nat) : Prop where
  pos : 0 < a
  stop_le : a + n * pageSize ≤ 0x10000000000000000
  apart : ∀ c ∈ h, c.stop ≤ a ∨ a + n * pageSize ≤ c.base

namespace Represents

variable {s s' : State W} {h h₁ h₂ : List Chunk} {d : Chunk} {l₁ l₂ : List Block} {b : Block}
  {r : Nat × State W} {a n : Nat} {w : W}

/-- **A block is put in.** -/
theorem place (hr : Represents s (h₁ ++ d :: h₂)) (hblocks : d.blocks = l₁ ++ l₂)
    (hok : (Chunk.mk d.base d.pages (l₁ ++ b :: l₂)).Ok)
    (hp : Places s d.base (predOf l₁) (succOf l₂) b r) :
    Represents r.2 (h₁ ++ ⟨d.base, d.pages, l₁ ++ b :: l₂⟩ :: h₂)
      ∧ ∀ x, Outside (h₁ ++ ⟨d.base, d.pages, l₁ ++ b :: l₂⟩ :: h₂) x → r.2.mem x = s.mem x := by
  obtain ⟨base, pages, blocks⟩ := d
  obtain rfl : blocks = l₁ ++ l₂ := hblocks
  constructor
  · refine hr.edit rfl rfl hok ?_ ?_ ?_ ?_ ?_ ?_
    · exact hp.put.chunkAt hok (hr.chunks _ (List.mem_append_right _ List.mem_cons_self))
    · intro x hx
      refine hp.put.frame.outside hok ?_
      rcases hx with hx | hx
      · exact Or.inl (Nat.lt_of_lt_of_le hx (Nat.add_le_add_left (by decide) _))
      · exact Or.inr hx
    · rw [hp.state]
    · rw [hp.state]
      exact hr.bestBet
    · rw [hp.state]
    · rw [hp.state]
      show (s.inuse + b.size) % _ = _
      rw [hr.inuse]
      simp only [List.map_append, List.map_cons, List.sum_append, List.sum_cons, Chunk.sizes]
      omega
  · intro x hx
    have hout := hx _ (List.mem_append_right h₁ (List.mem_cons_self ..))
    have hmajor : x < base ∨ base + 40 ≤ x := hok.off_major hout
    have hminor := hok.off_minor (List.mem_append_right l₁ (List.mem_cons_self ..)) hout
    have hbfacts := hok.block (List.mem_append_right l₁ (List.mem_cons_self (a := b) (l := l₂)))
    have hpred : predOf l₁ ≠ 0 → x < predOf l₁ ∨ predOf l₁ + 40 ≤ x := by
      intro hne
      rcases List.eq_nil_or_concat l₁ with rfl | ⟨l, p, rfl⟩
      · exact absurd rfl hne
      · rw [List.concat_eq_append] at *
        have hp : p ∈ (l ++ [p]) ++ b :: l₂ := List.mem_append_left _ (by simp)
        have hpfacts := hok.block hp
        have hpoff := hok.off_minor hp hout
        rw [predOf_concat]
        omega
    have hsucc : succOf l₂ ≠ 0 → x < succOf l₂ ∨ succOf l₂ + 40 ≤ x := by
      intro hne
      cases l₂ with
      | nil => exact absurd rfl hne
      | cons q l₂ =>
          have hq : q ∈ l₁ ++ b :: q :: l₂ := List.mem_append_right _ (by simp)
          have hqfacts := hok.block hq
          have hqoff := hok.off_minor hq hout
          rw [succOf_cons]
          omega
    apply hp.put.frame x
    · omega
    · omega
    · show x < base + 24 ∨ base + 28 ≤ x
      omega
    · intro _
      show x < base + 32 ∨ base + 40 ≤ x
      omega
    · intro hne
      have hpred := hpred hne
      omega
    · intro hne
      have hsucc := hsucc hne
      omega

/-- **New pages at the end of the list.** -/
theorem grow (hr : Represents s (h ++ [d])) (hnew : NewPages s s' a n w)
    (hfresh : FreshAt (h ++ [d]) a n) (hn : n * pageSize < 0x100000000)
    (hmin : 16 ≤ n) :
    Represents ((s'.set d.base Major.next a).set a Major.prev d.base)
        (h ++ [d] ++ [⟨a, n, []⟩])
      ∧ ∀ x, (x < a ∨ a + 40 ≤ x) → Outside (h ++ [d]) x →
        ((s'.set d.base Major.next a).set a Major.prev d.base).mem x = s.mem x := by
  have hpages : 16 * pageSize ≤ n * pageSize := Nat.mul_le_mul_right _ hmin
  have hpages : 65536 ≤ n * pageSize := hpages
  have hfits := hfresh.stop_le
  have hpos := hfresh.pos
  have hd : d ∈ h ++ [d] := List.mem_append_right _ List.mem_cons_self
  have hdstart := (hr.ok d hd).start_le
  have hdstop := (hr.ok d hd).stop_le
  have hdapart := hfresh.apart d hd
  have hok : (Chunk.mk a n []).Ok := by
    refine ⟨hpos, hfits, hn, ?_, fun b hb => absurd hb List.not_mem_nil⟩
    show a + 40 ≤ a + n * pageSize
    omega
  -- only the two links have changed since the pages came
  have hframe : ∀ x, (x < d.base + 8 ∨ d.base + 16 ≤ x) → (x < a ∨ a + 8 ≤ x) →
      ((s'.set d.base Major.next a).set a Major.prev d.base).mem x = s'.mem x := by
    intro x hx hx'
    show FlatMemory.set (FlatMemory.set _ _ _ _) _ _ _ x = _
    rw [set_out (show x < a + 0 ∨ a + 0 + 8 ≤ x by omega),
      set_out (show x < d.base + 8 ∨ d.base + 8 + 8 ≤ x by omega)]
  constructor
  · refine ⟨?_, ?_, ?_, ?_, ?_, ?_, ?_, ?_⟩
    · intro c hc
      rcases List.mem_append.mp hc with hc | hc
      · exact hr.ok c hc
      · rw [List.mem_singleton.mp hc]
        exact hok
    · refine List.pairwise_append.mpr ⟨hr.apart, List.pairwise_singleton _ _, fun c hc e he => ?_⟩
      rw [List.mem_singleton.mp he]
      exact hfresh.apart c hc
    · intro c hc
      rcases List.mem_append.mp hc with hc | hc
      · have hcstart := (hr.ok c hc).start_le
        have hcapart := hfresh.apart c hc
        have hold : ChunkAt s'.mem c := by
          refine (hr.chunks c hc).congr_range (hr.ok c hc) fun x hlo hhi => hnew.frame x ?_
          omega
        -- the link of the last chunk is not among the headers of a chunk
        have hsame : ∀ x, c.base + 16 ≤ x → x < c.stop →
            ((s'.set d.base Major.next a).set a Major.prev d.base).mem x = s'.mem x := by
          intro x hlo hhi
          refine hframe x ?_ (by omega)
          by_cases hcd : c = d
          · subst hcd
            omega
          · have hcases : c ∈ h := by
              rcases List.mem_append.mp hc with hc | hc
              · exact hc
              · exact absurd (List.mem_singleton.mp hc) hcd
            have hapart := (List.pairwise_append.mp hr.apart).2.2 c hcases d List.mem_cons_self
            rcases hapart with hapart | hapart <;> omega
        exact hold.congr_links (hr.ok c hc) hsame
      · rw [List.mem_singleton.mp hc]
        refine hnew.chunk.congr_links hok fun x hlo hhi => hframe x ?_ ?_
        · have hhi : x < a + n * pageSize := hhi
          have hlo : a + 16 ≤ x := hlo
          omega
        · have hlo : a + 16 ≤ x := hlo
          omega
    · -- the links: those of the last chunk and of the new one are written
      have hsame : ∀ c ∈ h ++ [d], ∀ x, c.base ≤ x → x < c.base + 16 →
          (c.base = d.base → x < d.base + 8) →
          ((s'.set d.base Major.next a).set a Major.prev d.base).mem x = s.mem x := by
        intro c hc x hlo hhi hlast
        have hcstart := (hr.ok c hc).start_le
        have hcapart := hfresh.apart c hc
        rw [hframe x ?_ (by omega), hnew.frame x (by omega)]
        by_cases hcd : c.base = d.base
        · exact Or.inl (hlast hcd)
        · have hcases : c ∈ h := by
            rcases List.mem_append.mp hc with hc | hc
            · exact hc
            · exact absurd (congrArg Chunk.base (List.mem_singleton.mp hc)) hcd
          have hapart := (List.pairwise_append.mp hr.apart).2.2 c hcases d List.mem_cons_self
          rcases hapart with hapart | hapart <;> omega
      have hnodup := hr.bases_nodup
      have hlinked := hr.linked
      rw [← List.append_nil ((h ++ [d]).map Chunk.base)] at hnodup hlinked
      rw [List.map_append, List.map_singleton]
      refine hlinked.insert hnodup ⟨?_, ?_⟩ (fun x hx => ?_) (fun x hx => ?_)
      · show FlatMemory.get (FlatMemory.set _ _ _ _) _ _ = _
        rw [get_set_same, List.map_append, List.map_singleton, List.getLastD_concat]
        refine Nat.mod_eq_of_lt ?_
        show d.base < 0x10000000000000000
        omega
      · show FlatMemory.get (FlatMemory.set (FlatMemory.set _ _ _ _) _ _ _) _ _ = 0
        rw [get_set_of_disjoint (show a + 0 + 8 ≤ a + 8 ∨ _ by omega),
          get_set_of_disjoint (show d.base + 8 + 8 ≤ a + 8 ∨ a + 8 + 8 ≤ d.base + 8 by omega)]
        exact hnew.next
      · rw [List.append_nil] at hx
        obtain ⟨c, hc, rfl⟩ := List.mem_map.mp hx
        rw [List.head?_nil, if_neg (by simp)]
        refine get_congr fun x hlo hhi => hsame c hc x hlo ?_ (fun heq => ?_)
        · have hhi : x < c.base + 0 + 8 := hhi
          omega
        · have hhi : x < c.base + 0 + 8 := hhi
          omega
      · rw [List.append_nil] at hx
        obtain ⟨c, hc, rfl⟩ := List.mem_map.mp hx
        rw [List.map_append, List.map_singleton, List.getLast?_concat]
        by_cases hcd : d.base = c.base
        · rw [if_pos (congrArg some hcd), ← hcd]
          show FlatMemory.get (FlatMemory.set (FlatMemory.set _ _ _ _) _ _ _) _ _ = a
          rw [get_set_of_disjoint (show a + 0 + 8 ≤ d.base + 8 ∨ d.base + 8 + 8 ≤ a + 0 by omega),
            get_set_same]
          refine Nat.mod_eq_of_lt ?_
          show a < 0x10000000000000000
          omega
        · rw [if_neg (fun heq => hcd (Option.some.inj heq))]
          refine get_congr fun x hlo hhi => hsame c hc x ?_ hhi (fun heq => absurd heq.symm hcd)
          have hlo : c.base + 8 ≤ x := hlo
          omega
    · have hroot : ((s'.set d.base Major.next a).set a Major.prev d.base).memRoot = s.memRoot := by
        show s'.memRoot = _
        rw [hnew.state]
      rw [hroot, hr.root]
      cases h <;> rfl
    · have hbest : ((s'.set d.base Major.next a).set a Major.prev d.base).bestBet = s.bestBet := by
        show s'.bestBet = _
        rw [hnew.state]
      rw [hbest, List.map_append]
      exact hr.bestBet.imp id fun hmem => List.mem_append_left _ hmem
    · have halloc : ((s'.set d.base Major.next a).set a Major.prev d.base).allocated
          = (s.allocated + n * pageSize) % 0x10000000000000000 := by
        show s'.allocated = _
        rw [hnew.state]
      have hsum : ((h ++ [d] ++ [Chunk.mk a n []]).map fun c => c.pages * pageSize).sum
          = ((h ++ [d]).map fun c => c.pages * pageSize).sum + n * pageSize := by
        rw [List.map_append, List.sum_append, List.map_singleton, List.sum_singleton]
      rw [halloc, hr.allocated, hsum, Nat.mod_add_mod]
    · have hinuse : ((s'.set d.base Major.next a).set a Major.prev d.base).inuse = s.inuse := by
        show s'.inuse = _
        rw [hnew.state]
      have hsum : ((h ++ [d] ++ [Chunk.mk a n []]).map Chunk.sizes).sum
          = ((h ++ [d]).map Chunk.sizes).sum := by
        rw [List.map_append, List.sum_append]
        rfl
      rw [hinuse, hr.inuse, hsum]
  · intro x hx hout
    have hoff := (hr.ok d hd).off_major (hout d hd)
    rw [hframe x (by omega) (by omega), hnew.frame x hx]

/-- **The first pages.** -/
theorem first (hr : Represents s []) (hnew : NewPages s s' a n w) (hfresh : FreshAt [] a n)
    (hn : n * pageSize < 0x100000000) (hmin : 16 ≤ n) :
    Represents { s' with memRoot := a } [⟨a, n, []⟩] := by
  have hpages : 16 * pageSize ≤ n * pageSize := Nat.mul_le_mul_right _ hmin
  have hpages : 65536 ≤ n * pageSize := hpages
  have hok : (Chunk.mk a n []).Ok := by
    refine ⟨hfresh.pos, hfresh.stop_le, hn, ?_, fun b hb => absurd hb List.not_mem_nil⟩
    show a + 40 ≤ a + n * pageSize
    omega
  refine ⟨?_, List.pairwise_singleton _ _, ?_, ⟨hnew.prev, hnew.next, trivial⟩, rfl, ?_, ?_, ?_⟩
  · intro c hc
    rw [List.mem_singleton.mp hc]
    exact hok
  · intro c hc
    rw [List.mem_singleton.mp hc]
    exact hnew.chunk
  · refine Or.inl ?_
    show s'.bestBet = 0
    rw [hnew.state]
    exact hr.bestBet.resolve_right (by simp)
  · show s'.allocated = _
    rw [hnew.state, List.map_singleton, List.sum_singleton]
    show (s.allocated + _) % _ = _
    rw [hr.allocated, List.map_nil, List.sum_nil, Nat.zero_mod, Nat.zero_add]
  · show s'.inuse = _
    rw [hnew.state]
    exact hr.inuse

/-- Another best bet among the chunks. -/
theorem withBest (hr : Represents s h) {best : Nat}
    (hbest : best = 0 ∨ best ∈ h.map Chunk.base) : Represents { s with bestBet := best } h :=
  hr.congr (fun _ _ => rfl) rfl hbest rfl rfl

end Represents

/-! ## §5. The loops. -/

/-- **What a request does to the heap**: the pointer, the world of the plugs and the chunks
afterwards. -/
inductive Allocates (P : Plugs W) (w : W) (h : List Chunk) (req : Nat) :
    Nat → W → List Chunk → Prop
  | placed {h₁ h₂ : List Chunk} {d : Chunk} {l₁ l₂ : List Block} : h = h₁ ++ d :: h₂ →
      d.blocks = l₁ ++ l₂ → FirstFit Block.addr Block.stop (req + 72) d.start l₁ l₂ d.stop →
      Allocates P w h req (newBlock (top Block.stop d.start l₁) req).ptr w
        (h₁ ++ ⟨d.base, d.pages, l₁ ++ newBlock (top Block.stop d.start l₁) req :: l₂⟩ :: h₂)
  | grown {a : Nat} {w' : W} : (∀ d ∈ h, ¬ d.HasFit (req + 32)) →
      P.alloc w (State.pagesFor (req + 32)) = (a, w') → a ≠ 0 →
      Allocates P w h req (newBlock (a + 40) req).ptr w'
        (h ++ [⟨a, State.pagesFor (req + 32), [newBlock (a + 40) req]⟩])
  | failed {w' : W} : (∀ d ∈ h, ¬ d.HasFit (req + 32)) →
      P.alloc w (State.pagesFor (req + 32)) = (0, w') → Allocates P w h req 0 w' h

/-- The result of `malloc`, with the state that goes with it. -/
def Done (P : Plugs W) (s : State W) (h : List Chunk) (req : Nat) (r : Nat × State W) : Prop :=
  ∃ h', Allocates P s.world h req r.1 r.2.world h' ∧ Represents r.2 h'
    ∧ ∀ x, Outside h x → Outside h' x → r.2.mem x = s.mem x

section Loops

attribute [local irreducible] State.pagesFor

variable {P : Plugs W} {s : State W} {h h₁ h₂ : List Chunk} {d : Chunk} {l₁ l₂ : List Block}
  {b : Block} {r : Nat × State W} {req bestSize : Nat} {started : Bool}

/-- The gap takes the block of the request. -/
theorem Chunk.Ok.insert_new {base pages : Nat} (hok : (Chunk.mk base pages (l₁ ++ l₂)).Ok)
    (hfits : Fits Block.addr Block.stop (req + 72) (base + 40) l₁ l₂ (base + pages * pageSize)) :
    (Chunk.mk base pages (l₁ ++ newBlock (top Block.stop (base + 40) l₁) req :: l₂)).Ok := by
  refine hok.insert (Nat.le_refl _) (Nat.le_refl _) ?_
  show top Block.stop (base + 40) l₁ + 40 + (req + 32) ≤ _
  unfold Fits at hfits
  omega

/-- **The block has been put in.** -/
theorem Done.of_places (hr : Represents s (h₁ ++ d :: h₂)) (hblocks : d.blocks = l₁ ++ l₂)
    (hfit : FirstFit Block.addr Block.stop (req + 72) d.start l₁ l₂ d.stop)
    (hp : Places s d.base (predOf l₁) (succOf l₂) (newBlock (top Block.stop d.start l₁) req) r) :
    Done P s (h₁ ++ d :: h₂) req r := by
  have hok : (Chunk.mk d.base d.pages (l₁ ++ newBlock (top Block.stop d.start l₁) req :: l₂)).Ok := by
    have hd := hr.ok d (List.mem_append_right _ List.mem_cons_self)
    obtain ⟨base, pages, blocks⟩ := d
    obtain rfl : blocks = l₁ ++ l₂ := hblocks
    exact hd.insert_new hfit.fits
  obtain ⟨hr', hframe⟩ := hr.place hblocks hok hp
  refine ⟨_, ?_, hr', fun x _ hx => hframe x hx⟩
  have hworld : r.2.world = s.world := by rw [hp.state]
  rw [hp.ptr, hworld]
  exact .placed rfl hblocks hfit

/-- What is free in a chunk, as the code counts it. -/
theorem free_eq (hr : Represents s h) (hd : d ∈ h) :
    sub32 (s.get d.base Major.size) (s.get d.base Major.usage)
      = d.pages * pageSize - (40 + d.used) := by
  have hchunk := hr.chunks d hd
  have hsize : s.get d.base Major.size = d.pages * pageSize := hchunk.size
  have husage : s.get d.base Major.usage = 40 + d.used := hchunk.usage
  rw [hsize, husage, sub32_eq (hr.ok d hd).used_le (hr.ok d hd).small]

/-- **CASE 1 is right**: where too little is free there is no gap. -/
theorem hasFit_le (hok : d.Ok) {size : Nat} (hfit : d.HasFit size) :
    size + 40 ≤ d.pages * pageSize - (40 + d.used) := by
  have hle : d.base + 40 + d.used + (size + 40) ≤ d.base + d.pages * pageSize :=
    hfit.used_le hok.packed
  omega

/-- **CASE 2 and CASE 3**: the gap at the start is taken, or the minors are searched. -/
theorem enter_cases (hr : Represents s (h₁ ++ d :: h₂)) (hreq : req ≤ maxRequest)
    (hroom : d.blocks = [] → req + 72 ≤ d.pages * pageSize - (40 + d.used)) (pc : Pc) :
    (∃ r, Walk.enter req (req + 32) ⟨s, d.base, started, bestSize, pc⟩ = .inr r
        ∧ Done P s (h₁ ++ d :: h₂) req r)
    ∨ ∃ b l, d.blocks = b :: l ∧ ¬ Fits Block.addr Block.stop (req + 72) d.start [] (b :: l) d.stop
        ∧ Walk.enter req (req + 32) ⟨s, d.base, started, bestSize, pc⟩
          = .inl ⟨s, d.base, started, bestSize, .minor b.addr⟩ := by
  have hd := List.mem_append_right h₁ (List.mem_cons_self (a := d) (l := h₂))
  have hok := hr.ok d hd
  have hchunk := hr.chunks d hd
  have hstop := hok.stop_le
  have hstop' : d.stop = d.base + d.pages * pageSize := rfl
  have hfirst : s.get d.base Major.first = d.addrs.headD 0 := hchunk.first
  unfold maxRequest at hreq
  unfold Walk.enter
  simp only [hfirst]
  rcases hblocks : d.blocks with _ | ⟨b, l⟩
  · -- a chunk without blocks
    have haddrs : d.addrs.headD 0 = 0 := by unfold Chunk.addrs; rw [hblocks]; rfl
    have hused : d.used = 0 := by unfold Chunk.used; rw [hblocks]; rfl
    have hroom := hroom hblocks
    rw [hused] at hroom
    rw [haddrs, if_pos rfl]
    refine Or.inl ⟨_, rfl, Done.of_places hr (show d.blocks = [] ++ [] from hblocks)
      ⟨?_, ?_⟩ ?_⟩
    · show d.base + 40 + (req + 72) ≤ d.base + d.pages * pageSize
      omega
    · exact fun _ _ _ hlt => absurd hlt (Nat.not_lt_zero _)
    · exact case2_places hok.pos (by omega) (by omega) (by omega)
  · have hb := hok.block (b := b) (by rw [hblocks]; exact List.mem_cons_self)
    have haddrs : d.addrs.headD 0 = b.addr := by unfold Chunk.addrs; rw [hblocks]; rfl
    rw [haddrs, if_neg (by omega)]
    have hdiff : sub64 (sub64 b.addr d.base) majorSize = b.addr - (d.base + 40) :=
      sub64_sub64 (show d.base + 40 ≤ b.addr by omega) (by omega)
    have hminor : req + 32 + minorSize = req + 72 := rfl
    rw [hdiff]
    by_cases hgap : d.base + 40 + (req + 72) ≤ b.addr
    · rw [if_pos (by omega)]
      refine Or.inl ⟨_, rfl, Done.of_places hr (show d.blocks = [] ++ b :: l from hblocks)
        ⟨hgap, ?_⟩ ?_⟩
      · exact fun _ _ _ hlt => absurd hlt (Nat.not_lt_zero _)
      · show Places s d.base 0 b.addr ⟨d.base + 40, req + 32, req⟩ _
        exact case3_places hok.pos (hfirst.trans haddrs) (by omega) (by omega) (by omega) (by omega)
    · rw [if_neg (by omega)]
      exact Or.inr ⟨b, l, rfl, hgap, rfl⟩

/-- **CASE 4**: the gap behind a minor is taken, or the next minor is looked at. -/
theorem minor_cases (hr : Represents s (h₁ ++ d :: h₂)) (hreq : req ≤ maxRequest)
    (hblocks : d.blocks = l₁ ++ b :: l₂)
    (hno : NoFitUpTo Block.addr Block.stop (req + 72) d.start (l₁ ++ b :: l₂) d.stop l₁.length) :
    (∃ r, Walk.round P req (req + 32) ⟨s, d.base, started, bestSize, .minor b.addr⟩ = .inr r
        ∧ Done P s (h₁ ++ d :: h₂) req r)
    ∨ (¬ Fits Block.addr Block.stop (req + 72) d.start (l₁ ++ [b]) l₂ d.stop
        ∧ Walk.round P req (req + 32) ⟨s, d.base, started, bestSize, .minor b.addr⟩
          = .inl ⟨s, d.base, started, bestSize, .minor (succOf l₂)⟩) := by
  have hd := List.mem_append_right h₁ (List.mem_cons_self (a := d) (l := h₂))
  have hok := hr.ok d hd
  have hchunk := hr.chunks d hd
  have hstop := hok.stop_le
  have hstop' : d.stop = d.base + d.pages * pageSize := rfl
  have hbmem : b ∈ d.blocks := by rw [hblocks]; simp
  have hb := hok.block hbmem
  have hbsize : s.get b.addr Minor.size = b.size := (hchunk.minors b hbmem).size
  have hdsize : s.get d.base Major.size = d.pages * pageSize := hchunk.size
  have hnext : s.get b.addr Minor.next = succOf l₂ := by
    obtain ⟨base, pages, blocks⟩ := d
    obtain rfl : blocks = l₁ ++ b :: l₂ := hblocks
    exact hchunk.links.2
  have htop : top Block.stop d.start (l₁ ++ [b]) = b.addr + 40 + b.size := by
    rw [top_concat]
    exact hb.2.1
  have hsplit : d.blocks = (l₁ ++ [b]) ++ l₂ := by rw [hblocks, List.append_assoc]; rfl
  have hminor : req + 32 + minorSize = req + 72 := rfl
  have hheader : minorSize = 40 := rfl
  unfold maxRequest at hreq
  unfold Walk.round
  simp only [hnext, hbsize, hdsize]
  rw [if_pos (by omega)]
  cases l₂ with
  | nil =>
      have hdiff : sub64 (sub64 (sub64 (d.base + d.pages * pageSize) b.addr) minorSize) b.size
          = d.stop - (b.addr + 40 + b.size) := by
        have hinner : sub64 (sub64 (d.base + d.pages * pageSize) b.addr) minorSize
            = d.stop - (b.addr + 40) := sub64_sub64 (show b.addr + 40 ≤ d.stop by omega) (by omega)
        rw [hinner, sub64_eq (by omega) (by omega)]
        omega
      rw [succOf_nil, if_pos rfl, hdiff]
      by_cases hgap : b.addr + 40 + b.size + (req + 72) ≤ d.stop
      · rw [if_pos (by omega)]
        have hfits : Fits Block.addr Block.stop (req + 72) d.start (l₁ ++ [b]) [] d.stop := by
          unfold Fits
          rw [htop]
          exact hgap
        refine Or.inl ⟨_, rfl, Done.of_places hr hsplit (hno.firstFit hfits) ?_⟩
        rw [htop, predOf_concat]
        refine case41_places hok.pos hb.1 ?_ (by omega) (by omega) (by omega)
        rw [hbsize]
      · rw [if_neg (by omega)]
        refine Or.inr ⟨?_, rfl⟩
        unfold Fits
        rw [htop]
        exact hgap
  | cons e l₂ =>
      have hemem : e ∈ d.blocks := by rw [hblocks]; simp
      have he := hok.block hemem
      have hbehind : b.addr + 40 + b.size ≤ e.addr := by
        have hpacked := hok.packed
        rw [hblocks] at hpacked
        have hle := hpacked.beside.2 e List.mem_cons_self
        omega
      have hdiff : sub64 (sub64 (sub64 e.addr b.addr) minorSize) b.size
          = e.addr - (b.addr + 40 + b.size) := by
        have hinner : sub64 (sub64 e.addr b.addr) minorSize = e.addr - (b.addr + 40) :=
          sub64_sub64 (show b.addr + 40 ≤ e.addr by omega) (by omega)
        rw [hinner, sub64_eq (by omega) (by omega)]
        omega
      rw [succOf_cons, if_neg (by omega), hdiff]
      by_cases hgap : b.addr + 40 + b.size + (req + 72) ≤ e.addr
      · rw [if_pos (by omega)]
        have hfits : Fits Block.addr Block.stop (req + 72) d.start (l₁ ++ [b]) (e :: l₂) d.stop := by
          unfold Fits
          rw [htop]
          exact hgap
        refine Or.inl ⟨_, rfl, Done.of_places hr hsplit (hno.firstFit hfits) ?_⟩
        rw [htop, predOf_concat, succOf_cons]
        refine case42_places hok.pos hb.1 hnext ?_ ?_ (by omega) (by omega) (by omega)
        · rw [hbsize]
        · show b.addr + 40 + b.size + 40 + (req + 32) ≤ e.addr
          omega
      · rw [if_neg (by omega)]
        refine Or.inr ⟨?_, rfl⟩
        unfold Fits
        rw [htop]
        exact hgap

/-- What the plugs answer to a request for `n` pages is none of the heap's. -/
def FreshAnswer (P : Plugs W) (w : W) (h : List Chunk) (n : Nat) : Prop :=
  ∀ a w', P.alloc w n = (a, w') → a ≠ 0 → FreshAt h a n

/-- `s'` is `s` with new pages behind the heap, for which no gap was left. -/
structure Grown (P : Plugs W) (s s' : State W) (h : List Chunk) (req a : Nat) : Prop where
  noFit : ∀ d ∈ h, ¬ d.HasFit (req + 32)
  alloc : P.alloc s.world (State.pagesFor (req + 32)) = (a, s'.world)
  pos : a ≠ 0
  represents : Represents s' (h ++ [⟨a, State.pagesFor (req + 32), []⟩])
  frame : ∀ x, x < a ∨ a + 40 ≤ x → Outside h x → s'.mem x = s.mem x

/-- **The new pages take the block**, by CASE 2. -/
theorem Grown.enter {s' : State W} {a : Nat} (hg : Grown P s s' h req a) (hreq : req ≤ maxRequest)
    (pc : Pc) :
    ∃ r, Walk.enter req (req + 32) ⟨s', a, started, bestSize, pc⟩ = .inr r
      ∧ Done P s h req r := by
  obtain ⟨hmin, hfits, hsmall⟩ := pagesFor_bounds (show req + 32 ≤ maxRequest + 32 by omega)
  have hr' := hg.represents
  have hmem : (Chunk.mk a (State.pagesFor (req + 32)) []) ∈ h ++ [⟨a, State.pagesFor (req + 32), []⟩] :=
    List.mem_append_right _ List.mem_cons_self
  have hok := hr'.ok _ hmem
  have hstop : a + State.pagesFor (req + 32) * pageSize ≤ 0x10000000000000000 := hok.stop_le
  have hfirst : s'.get a Major.first = 0 := (hr'.chunks _ hmem).first
  have hp : Places s' a 0 0 (newBlock (a + 40) req) (s'.case2 a req (req + 32)) := by
    unfold maxRequest at hreq
    exact case2_places hok.pos (by omega) (by omega) (by omega)
  have hok' : (Chunk.mk a (State.pagesFor (req + 32)) [newBlock (a + 40) req]).Ok := by
    refine Chunk.Ok.insert_new (show (Chunk.mk a (State.pagesFor (req + 32)) ([] ++ [])).Ok from hok) ?_
    show a + 40 + (req + 72) ≤ a + State.pagesFor (req + 32) * pageSize
    omega
  obtain ⟨hplace, hframe⟩ := hr'.place (show [] = [] ++ [] from rfl) hok' hp
  simp only [List.nil_append] at hplace hframe
  have hworld : (s'.case2 a req (req + 32)).2.world = s'.world := by rw [hp.state]
  refine ⟨s'.case2 a req (req + 32), ?_, h ++ [⟨a, State.pagesFor (req + 32),
    [newBlock (a + 40) req]⟩], ?_, hplace, ?_⟩
  · unfold Walk.enter
    simp only [hfirst]
    rw [if_pos trivial]
  · rw [hp.ptr, hworld]
    exact .grown hg.noFit hg.alloc hg.pos
  · intro x hx hx'
    have hoff := hok'.off_major (hx' _ (List.mem_append_right _ List.mem_cons_self))
    rw [hframe x hx', hg.frame x hoff hx]

/-- At a chunk with enough room the search enters it; elsewhere CASE 1 applies. -/
theorem round_major (hr : Represents s h) (hd : d ∈ h) :
    ∃ best bestSize', (best = s.bestBet ∨ best = d.base) ∧
      Walk.round P req (req + 32) ⟨s, d.base, started, bestSize, .major⟩
        = let c : Walk W := ⟨{ s with bestBet := best }, d.base, started, bestSize', .major⟩
          if d.pages * pageSize - (40 + d.used) < req + 72 then
            if s.get d.base Major.next ≠ 0 then .inl { c with maj := s.get d.base Major.next }
            else if started then .inl { c with maj := s.memRoot, startedBet := false }
            else c.grow P (req + 32) (Walk.enter req (req + 32))
          else c.enter req (req + 32) := by
  have hpos := (hr.ok d hd).pos
  have hfree := free_eq hr hd
  by_cases hbetter : bestSize < d.pages * pageSize - (40 + d.used)
  · refine ⟨d.base, d.pages * pageSize - (40 + d.used), Or.inr rfl, ?_⟩
    unfold Walk.round
    simp only [hfree]
    rw [if_neg (Nat.ne_of_gt hpos), if_pos hbetter]
    rfl
  · refine ⟨s.bestBet, bestSize, Or.inl rfl, ?_⟩
    unfold Walk.round
    simp only [hfree]
    rw [if_neg (Nat.ne_of_gt hpos), if_neg hbetter]
    rfl

/-- The loops end from here, with the block or without memory. -/
def Good (P : Plugs W) (s : State W) (h : List Chunk) (req : Nat) (c : Walk W) : Prop :=
  ∃ r, Loop.Returns (Walk.round P req (req + 32)) c r ∧ Done P s h req r

theorem Grown.good {s' : State W} {a : Nat} (hg : Grown P s s' h req a) (hreq : req ≤ maxRequest) :
    Good P s h req ⟨s', a, started, bestSize, .major⟩ := by
  obtain ⟨hmin, hfits, hsmall⟩ := pagesFor_bounds (show req + 32 ≤ maxRequest + 32 by omega)
  have hmem : (Chunk.mk a (State.pagesFor (req + 32)) []) ∈ h ++ [⟨a, State.pagesFor (req + 32), []⟩] :=
    List.mem_append_right _ List.mem_cons_self
  obtain ⟨best, bestSize', hbest, hround⟩ : ∃ best bestSize', _ ∧ Walk.round P req (req + 32)
      ⟨s', a, started, bestSize, .major⟩ = _ := round_major hg.represents hmem
  have hroom : ¬ (State.pagesFor (req + 32) * pageSize - (40 + 0) < req + 72) := by omega
  have hbest' : best = 0 ∨ best ∈ (h ++ [Chunk.mk a (State.pagesFor (req + 32)) []]).map Chunk.base := by
    rcases hbest with rfl | rfl
    · exact hg.represents.bestBet
    · exact Or.inr (List.mem_map_of_mem hmem)
  have hg' : Grown P s { s' with bestBet := best } h req a :=
    ⟨hg.noFit, hg.alloc, hg.pos, hg.represents.withBest hbest', hg.frame⟩
  obtain ⟨r, henter, hdone⟩ : ∃ r, Walk.enter req (req + 32)
      ⟨{ s' with bestBet := best }, a, started, bestSize', .major⟩ = .inr r ∧ _ :=
    hg'.enter hreq .major
  refine ⟨r, Loop.Returns.inr ?_, hdone⟩
  rw [hround, ← henter]
  exact if_neg hroom

/-- **New pages are asked for**, behind the last chunk. -/
theorem grow_cases (hr : Represents s (h ++ [d])) (hreq : req ≤ maxRequest)
    (hfresh : FreshAnswer P s.world (h ++ [d]) (State.pagesFor (req + 32)))
    (hno : ∀ e ∈ h ++ [d], ¬ e.HasFit (req + 32)) (pc : Pc)
    (go : Walk W → Walk W ⊕ (Nat × State W)) :
    (∃ r, Walk.grow P (req + 32) ⟨s, d.base, started, bestSize, pc⟩ go = .inr r
        ∧ Done P s (h ++ [d]) req r)
    ∨ ∃ a s', Grown P s s' (h ++ [d]) req a
        ∧ Walk.grow P (req + 32) ⟨s, d.base, started, bestSize, pc⟩ go
          = go ⟨s', a, started, bestSize, .major⟩ := by
  obtain ⟨hmin, hfits, hsmall⟩ := pagesFor_bounds (show req + 32 ≤ maxRequest + 32 by omega)
  rcases halloc : P.alloc s.world (State.pagesFor (req + 32)) with ⟨a, w'⟩
  by_cases ha : a = 0
  · -- no memory: the link that is written was null before
    subst ha
    have hlast : s.mem.get d.base Major.next = 0 := by
      have hlinked := hr.linked
      rw [List.map_append, List.map_singleton] at hlinked
      exact hlinked.links.2
    have hmem : s.mem.set d.base Major.next 0 = s.mem := by
      have hsame := set_get s.mem d.base Major.next
      rwa [hlast] at hsame
    refine Or.inl ⟨(0, { s with world := w', warningCount := s.warningCount + 1 }), ?_,
      h ++ [d], .failed hno halloc, ?_, fun _ _ _ => rfl⟩
    · unfold Walk.grow
      simp only [allocateNewPage_null halloc, State.set, hmem]
      rw [if_pos trivial]
    · exact hr.congr (fun _ _ => rfl) rfl hr.bestBet rfl rfl
  · obtain ⟨s', hpage, hnew⟩ := allocateNewPage_some (show req + 32 ≤ maxRequest + 32 by omega)
      halloc ha
    obtain ⟨hgrow, hframe⟩ := hr.grow hnew (hfresh a w' halloc ha) hsmall hmin
    refine Or.inr ⟨a, (s'.set d.base Major.next a).set a Major.prev d.base,
      ⟨hno, ?_, ha, hgrow, hframe⟩, ?_⟩
    · rw [halloc]
      show (a, w') = (a, s'.world)
      rw [hnew.state]
    · unfold Walk.grow
      simp only [hpage]
      rw [if_neg ha]

/-- A best bet is none or one of the chunks. -/
def BetOk (h : List Chunk) (best : Nat) : Prop := best = 0 ∨ best ∈ h.map Chunk.base

/-- **Leaving a chunk** without a fit: to the next one, back to the root when the search
started at the best bet, or to new pages. -/
theorem leave_good (hr : Represents s (h₁ ++ d :: h₂)) (hreq : req ≤ maxRequest)
    (hfresh : FreshAnswer P s.world (h₁ ++ d :: h₂) (State.pagesFor (req + 32)))
    {best : Nat} (hbest : BetOk (h₁ ++ d :: h₂) best)
    (hno : started = false → ∀ e ∈ h₁ ++ [d], ¬ e.HasFit (req + 32))
    (hroot : started = true → Good P s (h₁ ++ d :: h₂) req
      ⟨{ s with bestBet := best }, s.memRoot, false, bestSize, .major⟩)
    (hih : ∀ e h₂', h₂ = e :: h₂' → Good P s (h₁ ++ d :: h₂) req
      ⟨{ s with bestBet := best }, e.base, started, bestSize, .major⟩)
    {pc : Pc} {go : Walk W → Walk W ⊕ (Nat × State W)}
    (hgo : ∀ a s', Grown P { s with bestBet := best } s' (h₁ ++ d :: h₂) req a →
      (∃ c, go ⟨s', a, started, bestSize, .major⟩ = .inl c ∧ Good P s (h₁ ++ d :: h₂) req c)
      ∨ ∃ r, go ⟨s', a, started, bestSize, .major⟩ = .inr r ∧ Done P s (h₁ ++ d :: h₂) req r)
    {out : Walk W ⊕ (Nat × State W)}
    (hout : out = if s.get d.base Major.next ≠ 0 then
        .inl ⟨{ s with bestBet := best }, s.get d.base Major.next, started, bestSize, .major⟩
      else if started then .inl ⟨{ s with bestBet := best }, s.memRoot, false, bestSize, .major⟩
      else Walk.grow P (req + 32) ⟨{ s with bestBet := best }, d.base, started, bestSize, pc⟩ go) :
    (∃ c, out = .inl c ∧ Good P s (h₁ ++ d :: h₂) req c)
      ∨ ∃ r, out = .inr r ∧ Done P s (h₁ ++ d :: h₂) req r := by
  have hnext : s.get d.base Major.next = (h₂.map Chunk.base).headD 0 := by
    have hlinked := hr.linked
    rw [List.map_append, List.map_cons] at hlinked
    exact hlinked.links.2
  cases h₂ with
  | cons e h₂' =>
      have hepos := (hr.ok e (List.mem_append_right _ (by simp))).pos
      have hnext : s.get d.base Major.next = e.base := hnext
      rw [hnext, if_pos (Nat.ne_of_gt hepos)] at hout
      exact Or.inl ⟨_, hout, hih e h₂' rfl⟩
  | nil =>
      have hnext : s.get d.base Major.next = 0 := hnext
      rw [hnext, if_neg (by simp)] at hout
      cases started with
      | true => exact Or.inl ⟨_, hout, hroot rfl⟩
      | false =>
          rw [if_neg (by simp)] at hout
          have hr' := hr.withBest hbest
          rcases grow_cases hr' hreq hfresh (hno rfl) pc go with ⟨r, hgrow, hdone⟩ | ⟨a, s', hg, hgrow⟩
          · exact Or.inr ⟨r, hout.trans hgrow, hdone⟩
          · rw [hout, hgrow]
            exact hgo a s' hg

/-- **The minors of a chunk**: a gap is found, or CASE 5 is reached with none. -/
theorem minors_good (hr : Represents s (h₁ ++ d :: h₂)) (hreq : req ≤ maxRequest)
    (hend : ¬ d.HasFit (req + 32) →
      Good P s (h₁ ++ d :: h₂) req ⟨s, d.base, started, bestSize, .minor 0⟩) :
    ∀ l₂ l₁ b, d.blocks = l₁ ++ b :: l₂ →
      NoFitUpTo Block.addr Block.stop (req + 72) d.start d.blocks d.stop l₁.length →
      Good P s (h₁ ++ d :: h₂) req ⟨s, d.base, started, bestSize, .minor b.addr⟩ := by
  intro l₂
  induction l₂ with
  | nil =>
      intro l₁ b hblocks hno
      rw [hblocks] at hno
      rcases minor_cases hr hreq hblocks hno with ⟨r, hround, hdone⟩ | ⟨hnofit, hround⟩
      · exact ⟨r, Loop.Returns.inr hround, hdone⟩
      · -- the last minor: no gap anywhere
        have hall := hno.succ hnofit
        obtain ⟨r, hreturns, hdone⟩ := hend (by
          unfold Chunk.HasFit
          rw [hblocks]
          refine NoFitUpTo.none ?_
          rw [List.length_append, List.length_singleton]
          exact hall)
        exact ⟨r, Loop.Returns.inl hround hreturns, hdone⟩
  | cons e l₂ ih =>
      intro l₁ b hblocks hno
      rw [hblocks] at hno
      rcases minor_cases hr hreq hblocks hno with ⟨r, hround, hdone⟩ | ⟨hnofit, hround⟩
      · exact ⟨r, Loop.Returns.inr hround, hdone⟩
      · have hall := hno.succ hnofit
        obtain ⟨r, hreturns, hdone⟩ := ih (l₁ ++ [b]) e (by rw [hblocks, List.append_assoc]; rfl) (by
          rw [hblocks, List.length_append, List.length_singleton]
          exact hall)
        exact ⟨r, Loop.Returns.inl hround hreturns, hdone⟩

/-- **One chunk**: a gap in it, or what comes behind it. -/
theorem major_good (hr : Represents s (h₁ ++ d :: h₂)) (hreq : req ≤ maxRequest)
    (hfresh : FreshAnswer P s.world (h₁ ++ d :: h₂) (State.pagesFor (req + 32)))
    (hroot : started = true → ∀ best bestSize, BetOk (h₁ ++ d :: h₂) best →
      Good P s (h₁ ++ d :: h₂) req ⟨{ s with bestBet := best }, s.memRoot, false, bestSize, .major⟩)
    (hno : started = false → ∀ e ∈ h₁, ¬ e.HasFit (req + 32))
    (hih : (started = false → ¬ d.HasFit (req + 32)) → ∀ e h₂', h₂ = e :: h₂' → ∀ best bestSize,
      BetOk (h₁ ++ d :: h₂) best → Good P s (h₁ ++ d :: h₂) req
        ⟨{ s with bestBet := best }, e.base, started, bestSize, .major⟩)
    {best : Nat} (hbest : BetOk (h₁ ++ d :: h₂) best) (bestSize : Nat) :
    Good P s (h₁ ++ d :: h₂) req ⟨{ s with bestBet := best }, d.base, started, bestSize, .major⟩ := by
  have hd := List.mem_append_right h₁ (List.mem_cons_self (a := d) (l := h₂))
  have hok := hr.ok d hd
  obtain ⟨best', bestSize', hbest', hround⟩ : ∃ best' bestSize', _ ∧ Walk.round P req (req + 32)
      ⟨{ s with bestBet := best }, d.base, started, bestSize, .major⟩ = _ :=
    round_major (hr.withBest hbest) hd
  have hbest' : BetOk (h₁ ++ d :: h₂) best' := by
    rcases hbest' with rfl | rfl
    · exact hbest
    · exact Or.inr (List.mem_map_of_mem hd)
  have hno' : ¬ d.HasFit (req + 32) → started = false →
      ∀ e ∈ h₁ ++ [d], ¬ e.HasFit (req + 32) := by
    intro hnofit hstarted e he
    rcases List.mem_append.mp he with he | he
    · exact hno hstarted e he
    · rw [List.mem_singleton.mp he]
      exact hnofit
  by_cases hfree : d.pages * pageSize - (40 + d.used) < req + 72
  · -- CASE 1
    have hnofit : ¬ d.HasFit (req + 32) := by
      intro hfit
      have hle := hasFit_le hok hfit
      omega
    have hleave := leave_good hr hreq hfresh hbest' (hno' hnofit)
      (fun hstarted => hroot hstarted best' bestSize' hbest')
      (fun e h₂' heq => hih (fun _ => hnofit) e h₂' heq best' bestSize' hbest')
      (fun a s' hg => Or.inr (Grown.enter hg hreq .major))
      (hround.trans (if_pos hfree))
    rcases hleave with ⟨c, hout, r, hreturns, hdone⟩ | ⟨r, hout, hdone⟩
    · exact ⟨r, Loop.Returns.inl hout hreturns, hdone⟩
    · exact ⟨r, Loop.Returns.inr hout, hdone⟩
  · have hr' := hr.withBest hbest'
    have hround' := hround.trans (if_neg hfree)
    rcases enter_cases hr' hreq (fun _ => by omega) .major with
      ⟨r, henter, hdone⟩ | ⟨b, l, hblocks, hnofit, henter⟩
    · exact ⟨r, Loop.Returns.inr (hround'.trans henter), hdone⟩
    · have hend : ¬ d.HasFit (req + 32) → Good P s (h₁ ++ d :: h₂) req
          ⟨{ s with bestBet := best' }, d.base, started, bestSize', .minor 0⟩ := by
        intro hnofit
        -- CASE 5
        have hround : Walk.round P req (req + 32)
            ⟨{ s with bestBet := best' }, d.base, started, bestSize', .minor 0⟩
            = if s.get d.base Major.next ≠ 0 then
                .inl ⟨{ s with bestBet := best' }, s.get d.base Major.next, started, bestSize', .major⟩
              else if started then
                .inl ⟨{ s with bestBet := best' }, s.memRoot, false, bestSize', .major⟩
              else Walk.grow P (req + 32)
                ⟨{ s with bestBet := best' }, d.base, started, bestSize', .minor 0⟩ .inl := by
          unfold Walk.round
          simp only [ne_eq, not_true_eq_false, if_false]
          show (if s.get d.base Major.next = 0 then _ else _) = _
          by_cases hnext : s.get d.base Major.next = 0
          · rw [if_pos hnext, if_neg (show ¬ (s.get d.base Major.next ≠ 0) from fun hne => hne hnext)]
          · rw [if_neg hnext, if_pos hnext]
            rfl
        have hleave := leave_good hr hreq hfresh hbest' (hno' hnofit)
          (fun hstarted => hroot hstarted best' bestSize' hbest')
          (fun e h₂' heq => hih (fun _ => hnofit) e h₂' heq best' bestSize' hbest')
          (fun a s' hg => Or.inl ⟨_, rfl,
            show Good P { s with bestBet := best' } (h₁ ++ d :: h₂) req _ from hg.good hreq⟩) hround
        rcases hleave with ⟨c, hout, r, hreturns, hdone⟩ | ⟨r, hout, hdone⟩
        · exact ⟨r, Loop.Returns.inl hout hreturns, hdone⟩
        · exact ⟨r, Loop.Returns.inr hout, hdone⟩
      obtain ⟨r, hreturns, hdone⟩ := minors_good hr' hreq hend l [] b hblocks (by
        rw [hblocks]
        exact noFitUpTo_zero hnofit)
      exact ⟨r, Loop.Returns.inl (hround'.trans henter) hreturns, hdone⟩

/-- **The majors**: from any chunk on the loops end with the block or without memory. -/
theorem majors_good (started : Bool) (hr : Represents s h) (hreq : req ≤ maxRequest)
    (hfresh : FreshAnswer P s.world h (State.pagesFor (req + 32)))
    (hroot : started = true → ∀ best bestSize, BetOk h best →
      Good P s h req ⟨{ s with bestBet := best }, s.memRoot, false, bestSize, .major⟩) :
    ∀ h₂ h₁ d, h = h₁ ++ d :: h₂ → (started = false → ∀ e ∈ h₁, ¬ e.HasFit (req + 32)) →
      ∀ best bestSize, BetOk h best →
        Good P s h req ⟨{ s with bestBet := best }, d.base, started, bestSize, .major⟩ := by
  intro h₂
  induction h₂ with
  | nil =>
      intro h₁ d heq hno best bestSize hbest
      subst heq
      exact major_good hr hreq hfresh hroot hno (fun _ _ _ hnil => nomatch hnil) hbest bestSize
  | cons e h₂ ih =>
      intro h₁ d heq hno best bestSize hbest
      subst heq
      refine major_good hr hreq hfresh hroot hno (fun hnofit e' h₂' hcons => ?_) hbest bestSize
      obtain ⟨rfl, rfl⟩ := List.cons.inj hcons
      refine ih (h₁ ++ [d]) e (by rw [List.append_assoc]; rfl) (fun hstarted e' he' => ?_)
      rcases List.mem_append.mp he' with he' | he'
      · exact hno hstarted e' he'
      · rw [List.mem_singleton.mp he']
        exact hnofit hstarted

/-- The search from its start: at the root, or at the best bet. -/
theorem startWalk_good (hr : Represents s h) (hne : h ≠ []) (hreq : req ≤ maxRequest)
    (hfresh : FreshAnswer P s.world h (State.pagesFor (req + 32))) :
    Good P s h req (s.startWalk (req + 32)) := by
  obtain ⟨d, t, rfl⟩ := List.exists_cons_of_ne_nil hne
  have hroot : s.memRoot = d.base := hr.root
  have hfromRoot : ∀ best bestSize, BetOk (d :: t) best →
      Good P s (d :: t) req ⟨{ s with bestBet := best }, s.memRoot, false, bestSize, .major⟩ := by
    intro best bestSize hbest
    have hgood := majors_good false hr hreq hfresh (fun hfalse => absurd hfalse (by simp)) t [] d rfl
      (fun _ e he => absurd he List.not_mem_nil) best bestSize hbest
    rwa [← hroot] at hgood
  unfold State.startWalk
  dsimp only
  generalize (if s.bestBet ≠ 0 then _ else 0) = bestSize
  split
  · -- the best bet is one of the chunks
    have hmem := hr.bestBet.resolve_left (by tauto)
    obtain ⟨e, he, hbase⟩ := List.mem_map.mp hmem
    obtain ⟨h₁, h₂, hsplit⟩ := List.append_of_mem he
    rw [← hbase]
    exact majors_good true hr hreq hfresh (fun _ => hfromRoot) h₂ h₁ e hsplit
      (fun hfalse => absurd hfalse (by simp)) s.bestBet bestSize hr.bestBet
  · exact hfromRoot s.bestBet bestSize hr.bestBet

/-- **`malloc` on the whole**: it ends, and its result is as `Allocates` says. -/
theorem malloc_spec (hr : Represents s h) (hreq : req ≤ maxRequest)
    (hfresh : FreshAnswer P s.world h (State.pagesFor (req + 32))) :
    ∃ fuel r, s.malloc P fuel req = some r ∧ Done P s h req r := by
  obtain ⟨hmin, hfits, hsmall⟩ := pagesFor_bounds (show req + 32 ≤ maxRequest + 32 by omega)
  have hsize : (req + (alignment + alignInfo)) % 0x10000000000000000 = req + 32 := by
    unfold maxRequest at hreq
    exact Nat.mod_eq_of_lt (show req + 32 < _ by omega)
  have hmalloc : ∀ fuel, s.malloc P fuel req = s.mallocSize P fuel req (req + 32) := by
    intro fuel
    unfold State.malloc
    simp only [hsize]
    rw [if_neg (by omega)]
  rcases hh : h with _ | ⟨d, t⟩
  · -- the first time
    subst hh
    have hroot : s.memRoot = 0 := hr.root
    rcases halloc : P.alloc s.world (State.pagesFor (req + 32)) with ⟨a, w'⟩
    by_cases ha : a = 0
    · subst ha
      refine ⟨0, (0, { s with memRoot := 0, world := w', warningCount := s.warningCount + 1 }), ?_,
        [], .failed (fun e he => absurd he List.not_mem_nil) halloc, ?_, fun _ _ _ => rfl⟩
      · rw [hmalloc]
        unfold State.mallocSize
        simp only [allocateNewPage_null halloc]
        rw [if_pos hroot]
        rfl
      · exact hr.congr (fun _ _ => rfl) hroot.symm hr.bestBet rfl rfl
    · obtain ⟨s', hpage, hnew⟩ := allocateNewPage_some (show req + 32 ≤ maxRequest + 32 by omega)
        halloc ha
      have hr' := hr.first hnew (hfresh a w' halloc ha) hsmall hmin
      have hg : Grown P s { s' with memRoot := a } [] req a := by
        refine ⟨fun e he => absurd he List.not_mem_nil, ?_, ha, hr', fun x hx _ => hnew.frame x hx⟩
        rw [halloc]
        show (a, w') = (a, s'.world)
        rw [hnew.state]
      have hbet : s'.bestBet = 0 := by
        rw [hnew.state]
        exact hr.bestBet.resolve_right (by simp)
      obtain ⟨r, ⟨fuel, hfuel⟩, hdone⟩ : Good P s [] req ⟨{ s' with memRoot := a }, a, false, 0, .major⟩ :=
        hg.good hreq
      refine ⟨fuel, r, ?_, hdone⟩
      rw [hmalloc, ← hfuel]
      unfold State.mallocSize State.startWalk
      simp only [hroot, hpage, hbet]
      rw [if_pos trivial]
      simp [ha]
  · obtain ⟨r, ⟨fuel, hfuel⟩, hdone⟩ := startWalk_good hr (by rw [hh]; simp) hreq hfresh
    have hroot : s.memRoot ≠ 0 := by
      have hroot : s.memRoot = d.base := by rw [hr.root, hh]; rfl
      have hpos := (hr.ok d (by rw [hh]; exact List.mem_cons_self)).pos
      omega
    refine ⟨fuel, r, ?_, hh ▸ hdone⟩
    rw [hmalloc, ← hfuel]
    unfold State.mallocSize
    simp only [if_neg hroot]

end Loops

end MierOS.Memory.Liballoc
