/-
  MierOS.Memory.LiballocHeap
  **WHAT THE HEADERS OF `liballoc` STAND FOR**: chunks of pages with blocks in
  them, and what it takes in memory to put a block in or to take one out.

  Main results: `Chunk`, `Chunk.Ok`, `ChunkAt`, `Represents`, `Put.chunkAt`,
  `Taken.chunkAt`.
-/
import MierOS.Lib.Arena
import MierOS.Lib.DoubleLinks
import MierOS.Memory.Liballoc

namespace MierOS.Memory.Liballoc

open Lib Lib.FlatMemory Lib.Arena Lib.DoubleLinks

/-! ## §1. Alignment. -/

/-- The pointer `ALIGN` makes of `p`. -/
def alignPtr (p : Nat) : Nat :=
  p + 16 + if (p + 16) % 16 ≠ 0 then 16 - (p + 16) % 16 else (p + 16) % 16

theorem alignPtr_mod (p : Nat) : alignPtr p % 16 = 0 := by
  unfold alignPtr
  split <;> omega

theorem alignPtr_bounds (p : Nat) : p + 16 ≤ alignPtr p ∧ alignPtr p ≤ p + 31 := by
  unfold alignPtr
  split <;> omega

theorem align_eq (m : FlatMemory) (p : Nat) :
    align m p = (alignPtr p, m.store 1 (alignPtr p - 16) (alignPtr p - p)) := by
  have hdiff : (if (p + 16) % 16 ≠ 0 then 16 - (p + 16) % 16 else (p + 16) % 16) + 16
      = alignPtr p - p := by
    unfold alignPtr
    split <;> omega
  rw [← hdiff]
  rfl

/-- **The way back**, once the alignment byte is there. -/
theorem unalign_eq {m : FlatMemory} {p : Nat} (hp : p + 31 < 0x10000000000000000)
    (hbyte : m.load 1 (alignPtr p - 16) = alignPtr p - p) : unalign m (alignPtr p) = p := by
  obtain ⟨hlo, hhi⟩ := alignPtr_bounds p
  have hback : sub64 (alignPtr p) alignInfo = alignPtr p - 16 :=
    sub64_eq (show 16 ≤ alignPtr p by omega) (by omega)
  unfold unalign
  rw [hback, hbyte]
  show (if alignPtr p - p < 32 then sub64 (alignPtr p) (alignPtr p - p) else alignPtr p) = p
  rw [if_pos (by omega), sub64_eq (by omega) (by omega)]
  omega

/-! ## §2. Blocks and chunks. -/

/-- An allocation: where its header lies, the size it was given, and the size that was
asked for. -/
structure Block where
  addr : Nat
  size : Nat
  req : Nat
  deriving Repr, DecidableEq

namespace Block

/-- Where the block ends. -/
def stop (b : Block) : Nat := b.addr + minorSize + b.size

/-- The pointer the caller has. -/
def ptr (b : Block) : Nat := alignPtr (b.addr + minorSize)

end Block

/-- A run of pages and the blocks in it, in the order of their addresses. -/
structure Chunk where
  base : Nat
  pages : Nat
  blocks : List Block
  deriving Repr, DecidableEq

namespace Chunk

/-- Where the first block may start. -/
def start (c : Chunk) : Nat := c.base + majorSize

/-- Where the chunk ends. -/
def stop (c : Chunk) : Nat := c.base + c.pages * pageSize

/-- The bytes the blocks take, with their headers. -/
def used (c : Chunk) : Nat := Arena.used Block.addr Block.stop c.blocks

/-- Where the headers of the blocks lie. -/
def addrs (c : Chunk) : List Nat := c.blocks.map Block.addr

/-- **A chunk in order.** -/
structure Ok (c : Chunk) : Prop where
  pos : 0 < c.base
  stop_le : c.stop ≤ 0x10000000000000000
  small : c.pages * pageSize < 0x100000000
  packed : Packed Block.addr Block.stop c.start c.blocks c.stop
  room : ∀ b ∈ c.blocks, b.req + 32 ≤ b.size

/-- Some gap takes a block of `size` with its header. -/
def HasFit (size : Nat) (c : Chunk) : Prop :=
  Arena.HasFit Block.addr Block.stop (size + minorSize) c.start c.blocks c.stop

/-- Two chunks share no byte. -/
def Apart (c d : Chunk) : Prop := c.stop ≤ d.base ∨ d.stop ≤ c.base

/-- Nothing of the allocator is at `x`: it is no byte of the chunk, or one of a block's. -/
def Outside (c : Chunk) (x : Nat) : Prop :=
  x < c.base ∨ c.stop ≤ x ∨ ∃ b ∈ c.blocks, b.ptr ≤ x ∧ x < b.stop

theorem Apart.symm {c d : Chunk} (h : c.Apart d) : d.Apart c := Or.symm h

section

variable {c : Chunk} {b d : Block} {l₁ l₂ : List Block}

/-- The numbers of a block in its chunk. -/
theorem Ok.block (h : c.Ok) (hb : b ∈ c.blocks) :
    c.base + 40 ≤ b.addr ∧ b.stop = b.addr + 40 + b.size ∧ b.stop ≤ c.stop
      ∧ b.req + 32 ≤ b.size ∧ b.addr + 56 ≤ b.ptr ∧ b.ptr ≤ b.addr + 71 := by
  obtain ⟨hlo, -, hhi⟩ := h.packed.inside hb
  obtain ⟨hptr, hptr'⟩ := alignPtr_bounds (b.addr + 40)
  refine ⟨hlo, rfl, hhi, h.room b hb, ?_, ?_⟩
  · show b.addr + 56 ≤ alignPtr (b.addr + 40)
    omega
  · show alignPtr (b.addr + 40) ≤ b.addr + 71
    omega

theorem Ok.addrs_nodup (h : c.Ok) : c.addrs.Nodup := h.packed.starts_nodup

theorem Ok.start_le (h : c.Ok) : c.base + 40 ≤ c.stop := h.packed.le

/-- What is outside is no byte of the chunk's header. -/
theorem Ok.off_major (h : c.Ok) {x : Nat} (hx : c.Outside x) : x < c.base ∨ c.base + 40 ≤ x := by
  have hstart := h.start_le
  rcases hx with hx | hx | ⟨b, hb, hx, hx'⟩
  · exact Or.inl hx
  · omega
  · have hfacts := h.block hb
    omega

/-- Nor is it one of a block's header, or its alignment byte. -/
theorem Ok.off_minor (h : c.Ok) (hb : b ∈ c.blocks) {x : Nat} (hx : c.Outside x) :
    x < b.addr ∨ b.ptr ≤ x := by
  have hfacts := h.block hb
  rcases hx with hx | hx | ⟨d, hd, hx, hx'⟩
  · omega
  · omega
  · have hdfacts := h.block hd
    by_cases hbd : b = d
    · subst hbd
      omega
    · have hapart := h.packed.apart hb hd hbd
      omega

theorem used_append_cons (base pages : Nat) :
    (Chunk.mk base pages (l₁ ++ b :: l₂)).used
      = (Chunk.mk base pages (l₁ ++ l₂)).used + (b.size + 40) := by
  have hb : b.stop - b.addr = b.size + 40 := by
    show b.addr + 40 + b.size - b.addr = _
    omega
  unfold used
  simp only [Arena.used_append, Arena.used_cons, hb]
  omega

theorem Ok.used_le (h : c.Ok) : 40 + c.used ≤ c.pages * pageSize := by
  have hle := h.packed.used_le
  have hused : Arena.used Block.addr Block.stop c.blocks = c.used := rfl
  have hstart : c.start = c.base + 40 := rfl
  have hstop : c.stop = c.base + c.pages * pageSize := rfl
  omega

theorem Ok.insert {base pages : Nat} (h : (Chunk.mk base pages (l₁ ++ l₂)).Ok)
    (hroom : b.req + 32 ≤ b.size) (hlo : top Block.stop (base + 40) l₁ ≤ b.addr)
    (hhi : b.stop ≤ bottom Block.addr l₂ (base + pages * pageSize)) :
    (Chunk.mk base pages (l₁ ++ b :: l₂)).Ok := by
  refine ⟨h.pos, h.stop_le, h.small, ?_, ?_⟩
  · refine Packed.insert h.packed hlo ?_ hhi
    show b.addr < b.addr + 40 + b.size
    omega
  · intro d hd
    rcases List.mem_append.mp hd with hd | hd
    · exact h.room d (List.mem_append_left _ hd)
    · rcases List.mem_cons.mp hd with rfl | hd
      · exact hroom
      · exact h.room d (List.mem_append_right _ hd)

theorem Ok.erase {base pages : Nat} (h : (Chunk.mk base pages (l₁ ++ b :: l₂)).Ok) :
    (Chunk.mk base pages (l₁ ++ l₂)).Ok := by
  refine ⟨h.pos, h.stop_le, h.small, Packed.erase h.packed, fun d hd => h.room d ?_⟩
  rcases List.mem_append.mp hd with hd | hd
  · exact List.mem_append_left _ hd
  · exact List.mem_append_right _ (List.mem_cons_of_mem b hd)

end

end Chunk

/-! ## §3. The headers of a chunk. -/

/-- The header of a block and its alignment byte, the links apart. -/
structure MinorAt (m : FlatMemory) (base : Nat) (b : Block) : Prop where
  block : m.get b.addr Minor.block = base
  magic : m.get b.addr Minor.magic = magic
  size : m.get b.addr Minor.size = b.size
  reqSize : m.get b.addr Minor.reqSize = b.req
  aligned : m.load 1 (b.ptr - 16) = b.ptr - (b.addr + 40)

/-- **The headers of a chunk**, the links of the major apart. -/
structure ChunkAt (m : FlatMemory) (c : Chunk) : Prop where
  pages : m.get c.base Major.pages = c.pages
  size : m.get c.base Major.size = c.pages * pageSize
  usage : m.get c.base Major.usage = 40 + c.used
  first : m.get c.base Major.first = c.addrs.headD 0
  linked : DSeg (fun a => m.get a Minor.prev) (fun a => m.get a Minor.next) 0 c.addrs 0
  minors : ∀ b ∈ c.blocks, MinorAt m c.base b

section Congr

variable {m m' : FlatMemory} {c : Chunk} {b : Block} {base : Nat}

theorem MinorAt.congr (h : MinorAt m base b)
    (hsame : ∀ x, b.addr + 16 ≤ x → x < b.ptr → m' x = m x) : MinorAt m' base b := by
  obtain ⟨hptr, hptr'⟩ := alignPtr_bounds (b.addr + 40)
  have hptr : b.addr + 40 + 16 ≤ b.ptr := hptr
  have hfield : ∀ f : Field, 16 ≤ f.offset → f.offset + f.width ≤ 40 →
      m'.get b.addr f = m.get b.addr f := fun f hlo hhi =>
    get_congr fun x hx hx' => hsame x (by omega) (by omega)
  refine ⟨?_, ?_, ?_, ?_, ?_⟩
  · rw [hfield Minor.block (by decide) (by decide), h.block]
  · rw [hfield Minor.magic (by decide) (by decide), h.magic]
  · rw [hfield Minor.size (by decide) (by decide), h.size]
  · rw [hfield Minor.reqSize (by decide) (by decide), h.reqSize]
  · rw [load_congr fun x hx hx' => hsame x (by omega) (by omega), h.aligned]

/-- **Only the allocator's bytes matter.** -/
theorem ChunkAt.congr (h : ChunkAt m c) (hok : c.Ok)
    (hsame : ∀ x, ¬ c.Outside x → m' x = m x) : ChunkAt m' c := by
  have hmajor : ∀ x, c.base ≤ x → x < c.base + 40 → m' x = m x := by
    intro x hlo hhi
    refine hsame x fun hx => ?_
    have hx := hok.off_major hx
    omega
  have hminor : ∀ b ∈ c.blocks, ∀ x, b.addr ≤ x → x < b.ptr → m' x = m x := by
    intro b hb x hlo hhi
    refine hsame x fun hx => ?_
    have hx := hok.off_minor hb hx
    omega
  have hfield : ∀ f : Field, f.offset + f.width ≤ 40 → m'.get c.base f = m.get c.base f :=
    fun f hf => get_congr fun x hx hx' => hmajor x (by omega) (by omega)
  have hlink : ∀ x ∈ c.addrs, ∀ f : Field, f.offset + f.width ≤ 40 → m'.get x f = m.get x f := by
    intro x hx f hf
    obtain ⟨b, hb, rfl⟩ := List.mem_map.mp hx
    have hfacts := hok.block hb
    exact get_congr fun y hy hy' => hminor b hb y (by omega) (by omega)
  refine ⟨?_, ?_, ?_, ?_, ?_, ?_⟩
  · rw [hfield Major.pages (by decide), h.pages]
  · rw [hfield Major.size (by decide), h.size]
  · rw [hfield Major.usage (by decide), h.usage]
  · rw [hfield Major.first (by decide), h.first]
  · exact h.linked.frame fun x hx =>
      ⟨hlink x hx Minor.prev (by decide), hlink x hx Minor.next (by decide)⟩
  · intro b hb
    exact (h.minors b hb).congr fun x hlo hhi => hminor b hb x (by omega) hhi

/-- The links of the major may change. -/
theorem ChunkAt.congr_links (h : ChunkAt m c) (hok : c.Ok)
    (hsame : ∀ x, c.base + 16 ≤ x → x < c.stop → m' x = m x) : ChunkAt m' c := by
  have hstart := hok.start_le
  have hfield : ∀ f : Field, 16 ≤ f.offset → f.offset + f.width ≤ 40 →
      m'.get c.base f = m.get c.base f := fun f hlo hhi =>
    get_congr fun x hx hx' => hsame x (by omega) (by omega)
  have hlink : ∀ x ∈ c.addrs, ∀ f : Field, f.offset + f.width ≤ 40 → m'.get x f = m.get x f := by
    intro x hx f hf
    obtain ⟨b, hb, rfl⟩ := List.mem_map.mp hx
    have hfacts := hok.block hb
    exact get_congr fun y hy hy' => hsame y (by omega) (by omega)
  refine ⟨?_, ?_, ?_, ?_, ?_, ?_⟩
  · rw [hfield Major.pages (by decide) (by decide), h.pages]
  · rw [hfield Major.size (by decide) (by decide), h.size]
  · rw [hfield Major.usage (by decide) (by decide), h.usage]
  · rw [hfield Major.first (by decide) (by decide), h.first]
  · exact h.linked.frame fun x hx =>
      ⟨hlink x hx Minor.prev (by decide), hlink x hx Minor.next (by decide)⟩
  · intro b hb
    have hfacts := hok.block hb
    exact (h.minors b hb).congr fun x hlo hhi => hsame x (by omega) (by omega)

/-- A chunk none of whose bytes changes. -/
theorem ChunkAt.congr_range (h : ChunkAt m c) (hok : c.Ok)
    (hsame : ∀ x, c.base ≤ x → x < c.stop → m' x = m x) : ChunkAt m' c := by
  refine h.congr hok fun x hx => hsame x ?_ ?_
  · by_contra hlt
    exact hx (Or.inl (by omega))
  · by_contra hge
    exact hx (Or.inr (Or.inl (by omega)))

end Congr

/-! ## §4. One block more, one block less. -/

/-- Outside the block's header and alignment byte only the count and the links around it
change. -/
def Confined (m m' : FlatMemory) (base pred succ : Nat) (b : Block) : Prop :=
  ∀ x, x < b.addr ∨ b.addr + 40 ≤ x → x ≠ b.ptr - 16 → x < base + 24 ∨ base + 28 ≤ x →
    (pred = 0 → x < base + 32 ∨ base + 40 ≤ x) → (pred ≠ 0 → x < pred + 8 ∨ pred + 16 ≤ x) →
    (succ ≠ 0 → x < succ ∨ succ + 8 ≤ x) → m' x = m x

/-- A block has been put in between the headers at `pred` and `succ`; 0 is null. -/
structure Put (m m' : FlatMemory) (base pred succ : Nat) (b : Block) : Prop where
  prev : m'.get b.addr Minor.prev = pred
  next : m'.get b.addr Minor.next = succ
  minor : MinorAt m' base b
  usage : m'.get base Major.usage = (m.get base Major.usage + (b.size + 40)) % 0x100000000
  first : pred = 0 → m'.get base Major.first = b.addr
  predNext : pred ≠ 0 → m'.get pred Minor.next = b.addr
  succPrev : succ ≠ 0 → m'.get succ Minor.prev = b.addr
  frame : Confined m m' base pred succ b

/-- A block has been taken out from between them. -/
structure Taken (m m' : FlatMemory) (base pred succ : Nat) (b : Block) : Prop where
  usage : m'.get base Major.usage = sub64 (m.get base Major.usage) (b.size + 40) % 0x100000000
  first : pred = 0 → m'.get base Major.first = succ
  predNext : pred ≠ 0 → m'.get pred Minor.next = succ
  succPrev : succ ≠ 0 → m'.get succ Minor.prev = pred
  frame : Confined m m' base pred succ b

section Edit

variable {m m' : FlatMemory} {base pages : Nat} {b : Block} {l₁ l₂ : List Block}

/-- The header in front of a place in the list, 0 at the start. -/
def predOf (l₁ : List Block) : Nat := (l₁.map Block.addr).getLastD 0

/-- The header behind a place in the list, 0 at the end. -/
def succOf (l₂ : List Block) : Nat := (l₂.map Block.addr).headD 0

@[simp] theorem predOf_nil : predOf [] = 0 := rfl

@[simp] theorem predOf_concat (l : List Block) (d : Block) : predOf (l ++ [d]) = d.addr := by
  unfold predOf
  rw [List.map_append, List.map_singleton, List.getLastD_concat]

@[simp] theorem succOf_nil : succOf [] = 0 := rfl

@[simp] theorem succOf_cons (d : Block) (l : List Block) : succOf (d :: l) = d.addr := rfl

/-- **What an edit leaves alone** in the other blocks: all but the link that points at
the block. -/
theorem Confined.block (h : Confined m m' base (predOf l₁) (succOf l₂) b)
    (hok : (Chunk.mk base pages (l₁ ++ b :: l₂)).Ok) {d : Block} (hd : d ∈ l₁ ++ l₂) {x : Nat}
    (hlo : d.addr ≤ x) (hhi : x < d.stop)
    (hpred : l₁.getLast? = some d → x < d.addr + 8 ∨ d.addr + 16 ≤ x)
    (hsucc : l₂.head? = some d → x < d.addr ∨ d.addr + 8 ≤ x) : m' x = m x := by
  have hmem : l₁ ++ l₂ ⊆ l₁ ++ b :: l₂ := ((List.sublist_cons_self b l₂).append_left l₁).subset
  have hbfacts := hok.block (List.mem_append_right l₁ (List.mem_cons_self (a := b) (l := l₂)))
  have hdfacts := hok.block (hmem hd)
  have hbase : (Chunk.mk base pages (l₁ ++ b :: l₂)).base = base := rfl
  obtain ⟨hbefore, hbehind⟩ := hok.packed.beside
  have hapart : d.stop ≤ b.addr ∨ b.stop ≤ d.addr := by
    rcases List.mem_append.mp hd with hd | hd
    · exact Or.inl (hbefore d hd)
    · exact Or.inr (hbehind d hd)
  apply h x
  · omega
  · omega
  · omega
  · intro _
    omega
  · intro hne
    -- the block in front is `d`, or apart from it
    rcases List.eq_nil_or_concat l₁ with rfl | ⟨l, p, rfl⟩
    · exact absurd rfl hne
    · rw [List.concat_eq_append] at *
      rw [predOf_concat]
      by_cases hdp : d = p
      · subst hdp
        exact hpred List.getLast?_concat
      · have hp : p ∈ (l ++ [p]) ++ l₂ := List.mem_append_left _ (by simp)
        have hpfacts := hok.block (hmem hp)
        have happ := hok.packed.apart (hmem hd) (hmem hp) hdp
        omega
  · intro hne
    cases l₂ with
    | nil => exact absurd rfl hne
    | cons s l₂ =>
        rw [succOf_cons]
        by_cases hds : d = s
        · subst hds
          exact hsucc rfl
        · have hs : s ∈ l₁ ++ s :: l₂ := List.mem_append_right _ List.mem_cons_self
          have hsfacts := hok.block (hmem hs)
          have happ := hok.packed.apart (hmem hd) (hmem hs) hds
          omega

/-- An edit stays inside the chunk, and off the links of its header. -/
theorem Confined.outside (h : Confined m m' base (predOf l₁) (succOf l₂) b)
    (hok : (Chunk.mk base pages (l₁ ++ b :: l₂)).Ok) {x : Nat}
    (hx : x < base + 24 ∨ base + pages * pageSize ≤ x) : m' x = m x := by
  have hmem : l₁ ++ l₂ ⊆ l₁ ++ b :: l₂ := ((List.sublist_cons_self b l₂).append_left l₁).subset
  have hbfacts := hok.block (List.mem_append_right l₁ (List.mem_cons_self (a := b) (l := l₂)))
  have hstart := hok.start_le
  have hbase : (Chunk.mk base pages (l₁ ++ b :: l₂)).base = base := rfl
  have hstop : (Chunk.mk base pages (l₁ ++ b :: l₂)).stop = base + pages * pageSize := rfl
  apply h x
  · omega
  · omega
  · omega
  · intro _
    omega
  · intro hne
    rcases List.eq_nil_or_concat l₁ with rfl | ⟨l, p, rfl⟩
    · exact absurd rfl hne
    · rw [List.concat_eq_append] at *
      have hpfacts := hok.block (hmem (show p ∈ (l ++ [p]) ++ l₂ from
        List.mem_append_left _ (by simp)))
      rw [predOf_concat]
      omega
  · intro hne
    cases l₂ with
    | nil => exact absurd rfl hne
    | cons s l₂ =>
        have hsfacts := hok.block (hmem (show s ∈ l₁ ++ s :: l₂ from
          List.mem_append_right _ List.mem_cons_self))
        rw [succOf_cons]
        omega

/-- The other headers stay, their links apart. -/
theorem Confined.minor (h : Confined m m' base (predOf l₁) (succOf l₂) b)
    (hok : (Chunk.mk base pages (l₁ ++ b :: l₂)).Ok) {d : Block} (hd : d ∈ l₁ ++ l₂)
    (hminor : MinorAt m base d) : MinorAt m' base d := by
  have hdfacts := hok.erase.block hd
  refine hminor.congr fun x hlo hhi => h.block hok hd (by omega) (by omega) ?_ ?_
  · exact fun _ => Or.inr hlo
  · exact fun _ => Or.inr (by omega)

/-- The links back, when the block behind is linked back to `v`. -/
theorem Confined.prevs (h : Confined m m' base (predOf l₁) (succOf l₂) b)
    (hok : (Chunk.mk base pages (l₁ ++ b :: l₂)).Ok) {v : Nat}
    (hsucc : succOf l₂ ≠ 0 → m'.get (succOf l₂) Minor.prev = v) :
    ∀ x ∈ l₁.map Block.addr ++ l₂.map Block.addr, m'.get x Minor.prev
      = if (l₂.map Block.addr).head? = some x then v else m.get x Minor.prev := by
  intro x hx
  rw [← List.map_append] at hx
  obtain ⟨d, hd, rfl⟩ := List.mem_map.mp hx
  have hdfacts := hok.erase.block hd
  by_cases hhead : (l₂.map Block.addr).head? = some d.addr
  · rw [if_pos hhead]
    cases l₂ with
    | nil => exact absurd hhead (by simp)
    | cons s l₂ =>
        obtain heq : s.addr = d.addr := by simpa using hhead
        rw [← heq]
        exact hsucc (by rw [succOf_cons]; omega)
  · rw [if_neg hhead]
    refine get_congr fun x hlo hhi => h.block hok hd hlo ?_ ?_ ?_
    · have hhi : x < d.addr + 0 + 8 := hhi
      omega
    · exact fun _ => Or.inl hhi
    · intro hd
      rw [List.head?_map, hd] at hhead
      exact absurd rfl hhead

/-- The links on, when the block in front is linked on to `v`. -/
theorem Confined.nexts (h : Confined m m' base (predOf l₁) (succOf l₂) b)
    (hok : (Chunk.mk base pages (l₁ ++ b :: l₂)).Ok) {v : Nat}
    (hpred : predOf l₁ ≠ 0 → m'.get (predOf l₁) Minor.next = v) :
    ∀ x ∈ l₁.map Block.addr ++ l₂.map Block.addr, m'.get x Minor.next
      = if (l₁.map Block.addr).getLast? = some x then v else m.get x Minor.next := by
  intro x hx
  rw [← List.map_append] at hx
  obtain ⟨d, hd, rfl⟩ := List.mem_map.mp hx
  have hdfacts := hok.erase.block hd
  by_cases hlast : (l₁.map Block.addr).getLast? = some d.addr
  · rw [if_pos hlast]
    rcases List.eq_nil_or_concat l₁ with rfl | ⟨l, p, rfl⟩
    · exact absurd hlast (by simp)
    · rw [List.concat_eq_append] at *
      obtain heq : p.addr = d.addr := by simpa using hlast
      rw [predOf_concat] at hpred
      rw [← heq]
      exact hpred (by omega)
  · rw [if_neg hlast]
    refine get_congr fun x hlo hhi => ?_
    have hlo : d.addr + 8 ≤ x := hlo
    have hhi : x < d.addr + 8 + 8 := hhi
    refine h.block hok hd (by omega) (by omega) ?_ (fun _ => Or.inr hlo)
    intro hd
    rw [List.getLast?_map, hd] at hlast
    exact absurd rfl hlast

/-- The header of the major but for the count and the first block. -/
theorem Confined.majorField (h : Confined m m' base (predOf l₁) (succOf l₂) b)
    (hok : (Chunk.mk base pages (l₁ ++ b :: l₂)).Ok) {f : Field} (hf : f.offset + f.width ≤ 24) :
    m'.get base f = m.get base f :=
  get_congr fun _ _ _ => h.outside hok (Or.inl (by omega))

/-- The pointer to the first block, when it is none of the edit's business. -/
theorem Confined.firstField (h : Confined m m' base (predOf l₁) (succOf l₂) b)
    (hok : (Chunk.mk base pages (l₁ ++ b :: l₂)).Ok) (hpred : predOf l₁ ≠ 0) :
    m'.get base Major.first = m.get base Major.first := by
  have hbfacts := hok.block (List.mem_append_right l₁ (List.mem_cons_self (a := b) (l := l₂)))
  have hbase : (Chunk.mk base pages (l₁ ++ b :: l₂)).base = base := rfl
  refine get_congr fun x hlo hhi => ?_
  have hlo : base + 32 ≤ x := hlo
  have hhi : x < base + 32 + 8 := hhi
  apply h x
  · omega
  · omega
  · omega
  · exact fun hzero => absurd hzero hpred
  · intro hne
    rcases List.eq_nil_or_concat l₁ with rfl | ⟨l, p, rfl⟩
    · exact absurd rfl hne
    · rw [List.concat_eq_append] at *
      have hp : base + 40 ≤ p.addr := (hok.erase.block (show p ∈ (l ++ [p]) ++ l₂ from
        List.mem_append_left _ (by simp))).1
      rw [predOf_concat]
      omega
  · intro hne
    cases l₂ with
    | nil => exact absurd rfl hne
    | cons s l₂ =>
        have hs : base + 40 ≤ s.addr := (hok.erase.block (show s ∈ l₁ ++ s :: l₂ from
          List.mem_append_right _ List.mem_cons_self)).1
        rw [succOf_cons]
        omega

/-- No block in front means that the block is the first. -/
theorem predOf_eq_zero_iff (hok : (Chunk.mk base pages (l₁ ++ l₂)).Ok) :
    predOf l₁ = 0 ↔ l₁ = [] := by
  rcases List.eq_nil_or_concat l₁ with rfl | ⟨l, p, rfl⟩
  · exact iff_of_true rfl rfl
  · rw [List.concat_eq_append] at *
    have hpfacts := hok.block (show p ∈ (l ++ [p]) ++ l₂ from List.mem_append_left _ (by simp))
    rw [predOf_concat]
    exact iff_of_false (by omega) (by simp)

/-- **A block more.** -/
theorem Put.chunkAt (h : Put m m' base (predOf l₁) (succOf l₂) b)
    (hok : (Chunk.mk base pages (l₁ ++ b :: l₂)).Ok)
    (hchunk : ChunkAt m ⟨base, pages, l₁ ++ l₂⟩) : ChunkAt m' ⟨base, pages, l₁ ++ b :: l₂⟩ := by
  have hsmall := hok.small
  have hused := hok.used_le
  have hcons : (Chunk.mk base pages (l₁ ++ b :: l₂)).used
      = (Chunk.mk base pages (l₁ ++ l₂)).used + (b.size + 40) := Chunk.used_append_cons base pages
  refine ⟨?_, ?_, ?_, ?_, ?_, ?_⟩
  · rw [h.frame.majorField hok (by decide), hchunk.pages]
  · rw [h.frame.majorField hok (by decide), hchunk.size]
  · show m'.get base Major.usage = 40 + _
    have husage : m.get base Major.usage = 40 + (Chunk.mk base pages (l₁ ++ l₂)).used := hchunk.usage
    rw [h.usage, husage, hcons]
    have hsmall : pages * pageSize < 0x100000000 := hsmall
    omega
  · show m'.get base Major.first = ((l₁ ++ b :: l₂).map Block.addr).headD 0
    by_cases hnil : l₁ = []
    · subst hnil
      exact h.first rfl
    · rw [h.frame.firstField hok (fun hzero => hnil ((predOf_eq_zero_iff hok).mp hzero))]
      obtain ⟨p, l, rfl⟩ := List.exists_cons_of_ne_nil hnil
      exact hchunk.first
  · have hnodup := hok.erase.addrs_nodup
    have hlinked := hchunk.linked
    unfold Chunk.addrs at hnodup hlinked ⊢
    rw [List.map_append] at hnodup hlinked
    rw [List.map_append, List.map_cons]
    exact hlinked.insert hnodup ⟨h.prev, h.next⟩ (h.frame.prevs hok h.succPrev)
      (h.frame.nexts hok h.predNext)
  · intro d hd
    rcases List.mem_append.mp hd with hd | hd
    · exact h.frame.minor hok (List.mem_append_left _ hd)
        (hchunk.minors d (List.mem_append_left _ hd))
    · rcases List.mem_cons.mp hd with rfl | hd
      · exact h.minor
      · exact h.frame.minor hok (List.mem_append_right _ hd)
          (hchunk.minors d (List.mem_append_right _ hd))

/-- The links of a block in its chunk. -/
theorem ChunkAt.links (hchunk : ChunkAt m ⟨base, pages, l₁ ++ b :: l₂⟩) :
    m.get b.addr Minor.prev = predOf l₁ ∧ m.get b.addr Minor.next = succOf l₂ := by
  have hlinked := hchunk.linked
  unfold Chunk.addrs at hlinked
  rw [List.map_append, List.map_cons] at hlinked
  exact hlinked.links

/-- **A block less.** -/
theorem Taken.chunkAt (h : Taken m m' base (predOf l₁) (succOf l₂) b)
    (hok : (Chunk.mk base pages (l₁ ++ b :: l₂)).Ok)
    (hchunk : ChunkAt m ⟨base, pages, l₁ ++ b :: l₂⟩) : ChunkAt m' ⟨base, pages, l₁ ++ l₂⟩ := by
  have hsmall : pages * pageSize < 0x100000000 := hok.small
  have hused : 40 + (Chunk.mk base pages (l₁ ++ b :: l₂)).used ≤ pages * pageSize := hok.used_le
  have hcons : (Chunk.mk base pages (l₁ ++ b :: l₂)).used
      = (Chunk.mk base pages (l₁ ++ l₂)).used + (b.size + 40) := Chunk.used_append_cons base pages
  obtain ⟨hprev, hnext⟩ := hchunk.links
  refine ⟨?_, ?_, ?_, ?_, ?_, ?_⟩
  · rw [h.frame.majorField hok (by decide), hchunk.pages]
  · rw [h.frame.majorField hok (by decide), hchunk.size]
  · show m'.get base Major.usage = 40 + _
    have husage : m.get base Major.usage = 40 + (Chunk.mk base pages (l₁ ++ b :: l₂)).used :=
      hchunk.usage
    rw [h.usage, husage, sub64_eq (by omega) (by omega)]
    omega
  · show m'.get base Major.first = ((l₁ ++ l₂).map Block.addr).headD 0
    by_cases hnil : l₁ = []
    · subst hnil
      exact h.first rfl
    · rw [h.frame.firstField hok (fun hzero => hnil ((predOf_eq_zero_iff hok).mp hzero))]
      obtain ⟨p, l, rfl⟩ := List.exists_cons_of_ne_nil hnil
      exact hchunk.first
  · have hnodup := hok.addrs_nodup
    have hlinked := hchunk.linked
    unfold Chunk.addrs at hnodup hlinked ⊢
    rw [List.map_append, List.map_cons] at hnodup hlinked
    rw [List.map_append]
    refine hlinked.unlink hnodup ?_ ?_
    · exact h.frame.prevs hok fun hne => (h.succPrev hne).trans hprev.symm
    · exact h.frame.nexts hok fun hne => (h.predNext hne).trans hnext.symm
  · intro d hd
    refine h.frame.minor hok hd (hchunk.minors d ?_)
    rcases List.mem_append.mp hd with hd | hd
    · exact List.mem_append_left _ hd
    · exact List.mem_append_right _ (List.mem_cons_of_mem b hd)

end Edit

/-! ## §5. The heap. -/

/-- The bytes the blocks of a chunk were given. -/
def Chunk.sizes (c : Chunk) : Nat := (c.blocks.map Block.size).sum

/-- **The state stands for a list of chunks**, in the order of their links. -/
structure Represents {W : Type} (s : State W) (h : List Chunk) : Prop where
  ok : ∀ c ∈ h, c.Ok
  apart : h.Pairwise Chunk.Apart
  chunks : ∀ c ∈ h, ChunkAt s.mem c
  linked : DSeg (fun a => s.mem.get a Major.prev) (fun a => s.mem.get a Major.next) 0
    (h.map Chunk.base) 0
  root : s.memRoot = (h.map Chunk.base).headD 0
  bestBet : s.bestBet = 0 ∨ s.bestBet ∈ h.map Chunk.base
  allocated : s.allocated
    = (h.map fun c => c.pages * pageSize).sum % 0x10000000000000000
  inuse : s.inuse = (h.map Chunk.sizes).sum % 0x10000000000000000

/-- Nothing of the allocator is at `x`. -/
def Outside (h : List Chunk) (x : Nat) : Prop := ∀ c ∈ h, c.Outside x

namespace Represents

variable {W : Type} {s s' : State W} {h h₁ h₂ : List Chunk} {c c' : Chunk}

theorem bases_nodup (hr : Represents s h) : (h.map Chunk.base).Nodup := by
  refine List.pairwise_map.mpr (hr.apart.imp_of_mem fun hc hd hapart => ?_)
  have hc := (hr.ok _ hc).start_le
  have hd := (hr.ok _ hd).start_le
  rcases hapart with hapart | hapart <;> omega

/-- A chunk in the middle is apart from the others. -/
theorem apart_mid (hr : Represents s (h₁ ++ c :: h₂)) {d : Chunk} (hd : d ∈ h₁ ++ h₂) :
    c.Apart d := by
  obtain ⟨-, hmid, hcross⟩ := List.pairwise_append.mp hr.apart
  rcases List.mem_append.mp hd with hd | hd
  · exact (hcross d hd c List.mem_cons_self).symm
  · exact (List.pairwise_cons.mp hmid).1 d hd

theorem mem_mid {d : Chunk} (hd : d ∈ h₁ ++ h₂) : d ∈ h₁ ++ c :: h₂ := by
  rcases List.mem_append.mp hd with hd | hd
  · exact List.mem_append_left _ hd
  · exact List.mem_append_right _ (List.mem_cons_of_mem c hd)

theorem mem_mid_cases {d : Chunk} (hd : d ∈ h₁ ++ c :: h₂) : d = c ∨ d ∈ h₁ ++ h₂ := by
  rcases List.mem_append.mp hd with hd | hd
  · exact Or.inr (List.mem_append_left _ hd)
  · rcases List.mem_cons.mp hd with rfl | hd
    · exact Or.inl rfl
    · exact Or.inr (List.mem_append_right _ hd)

/-- Two chunks of the heap are apart. -/
theorem apart_of_ne (hr : Represents s h) {d : Chunk} (hc : c ∈ h) (hd : d ∈ h) (hne : c ≠ d) :
    c.Apart d := by
  obtain ⟨h₁, h₂, rfl⟩ := List.append_of_mem hc
  rcases mem_mid_cases hd with heq | hd
  · exact absurd heq.symm hne
  · exact hr.apart_mid hd

/-- **One chunk changes**, behind the links of its header. -/
theorem edit (hr : Represents s (h₁ ++ c :: h₂)) (hbase : c'.base = c.base)
    (hpages : c'.pages = c.pages) (hok : c'.Ok) (hchunk : ChunkAt s'.mem c')
    (hframe : ∀ x, x < c.base + 16 ∨ c.stop ≤ x → s'.mem x = s.mem x)
    (hroot : s'.memRoot = s.memRoot)
    (hbest : s'.bestBet = 0 ∨ s'.bestBet ∈ (h₁ ++ c :: h₂).map Chunk.base)
    (halloc : s'.allocated = s.allocated)
    (hinuse : s'.inuse = ((h₁ ++ c' :: h₂).map Chunk.sizes).sum % 0x10000000000000000) :
    Represents s' (h₁ ++ c' :: h₂) := by
  have hstop : c'.stop = c.stop := by
    unfold Chunk.stop
    rw [hbase, hpages]
  have happ : ∀ d, c'.Apart d ↔ c.Apart d := by
    intro d
    unfold Chunk.Apart
    rw [hbase, hstop]
  have hbases : (h₁ ++ c' :: h₂).map Chunk.base = (h₁ ++ c :: h₂).map Chunk.base := by
    rw [List.map_append, List.map_cons, hbase, List.map_append, List.map_cons]
  refine ⟨?_, ?_, ?_, ?_, ?_, ?_, ?_, hinuse⟩
  · intro d hd
    rcases mem_mid_cases hd with rfl | hd
    · exact hok
    · exact hr.ok d (mem_mid hd)
  · have hpair := hr.apart
    rw [List.pairwise_append, List.pairwise_cons] at hpair ⊢
    obtain ⟨hleft, ⟨hmid, hright⟩, hcross⟩ := hpair
    refine ⟨hleft, ⟨fun d hd => (happ d).mpr (hmid d hd), hright⟩, fun d hd e he => ?_⟩
    rcases List.mem_cons.mp he with rfl | he
    · exact ((happ d).mpr (hcross d hd c List.mem_cons_self).symm).symm
    · exact hcross d hd e (List.mem_cons_of_mem c he)
  · intro d hd
    rcases mem_mid_cases hd with rfl | hd
    · exact hchunk
    · refine (hr.chunks d (mem_mid hd)).congr_range (hr.ok d (mem_mid hd)) fun x hlo hhi => ?_
      have hapart := hr.apart_mid hd
      refine hframe x ?_
      rcases hapart with hapart | hapart <;> omega
  · rw [hbases]
    refine hr.linked.frame fun x hx => ?_
    obtain ⟨d, hd, rfl⟩ := List.mem_map.mp hx
    have hdstart := (hr.ok d hd).start_le
    have hlink : ∀ y, d.base ≤ y → y < d.base + 16 → s'.mem y = s.mem y := by
      intro y hlo hhi
      refine hframe y ?_
      rcases mem_mid_cases hd with rfl | hd
      · exact Or.inl hhi
      · have hapart := hr.apart_mid hd
        rcases hapart with hapart | hapart <;> omega
    exact ⟨get_congr fun y hlo hhi => hlink y hlo (Nat.lt_of_lt_of_le hhi (Nat.add_le_add_left (by decide) _)),
      get_congr fun y hlo hhi => hlink y (Nat.le_trans (Nat.le_add_right _ _) hlo) hhi⟩
  · rw [hbases, hroot]
    exact hr.root
  · rw [hbases]
    exact hbest
  · rw [halloc, hr.allocated, List.map_append, List.map_cons, List.map_append, List.map_cons,
      hpages]

/-- **Nothing of the allocator changes.** -/
theorem congr (hr : Represents s h) (hframe : ∀ x, ¬ Outside h x → s'.mem x = s.mem x)
    (hroot : s'.memRoot = s.memRoot)
    (hbest : s'.bestBet = 0 ∨ s'.bestBet ∈ h.map Chunk.base)
    (halloc : s'.allocated = s.allocated) (hinuse : s'.inuse = s.inuse) : Represents s' h := by
  have hchunk : ∀ c ∈ h, ∀ x, ¬ c.Outside x → s'.mem x = s.mem x :=
    fun c hc x hx => hframe x fun hout => hx (hout c hc)
  refine ⟨hr.ok, hr.apart, fun c hc => (hr.chunks c hc).congr (hr.ok c hc) (hchunk c hc), ?_,
    hroot.trans hr.root, hbest, halloc.trans hr.allocated, hinuse.trans hr.inuse⟩
  refine hr.linked.frame fun x hx => ?_
  obtain ⟨c, hc, rfl⟩ := List.mem_map.mp hx
  have hlink : ∀ f : Field, f.offset + f.width ≤ 40 →
      s'.mem.get c.base f = s.mem.get c.base f := by
    intro f hf
    refine get_congr fun y hlo hhi => hchunk c hc y fun hout => ?_
    have hoff := (hr.ok c hc).off_major hout
    omega
  exact ⟨hlink Major.prev (by decide), hlink Major.next (by decide)⟩

end Represents

end MierOS.Memory.Liballoc
