/-
  MierOS.Memory.LiballocRun
  **`malloc` AND ITS CALLERS**, over whole runs.

  A run is any order of `malloc`, `calloc`, `realloc`, `free` and writes of the
  callers inside what they hold.  `Sound` relates the state of the allocator to
  the ledger of these calls; every call keeps it.
-/
import MierOS.Lib.HeapCalls
import MierOS.Lib.Run
import MierOS.Memory.LiballocResize

namespace MierOS.Memory.Liballoc

open Lib Lib.FlatMemory Lib.HeapCalls

variable {W : Type}

/-! ## §1. The plugs and the calls. -/

/-- **What `liballoc_alloc` and `liballoc_free` promise**: `Holds w o` says that the page runs
of `o` are out; a run that is handed out shares no page with them, until it is given back. -/
structure Lawful (P : Plugs W) where
  Holds : W → List (Nat × Nat) → Prop
  perm : ∀ w o o', Holds w o → o.Perm o' → Holds w o'
  alloc : ∀ w o n a w', Holds w o → 1 ≤ n → P.alloc w n = (a, w') → a ≠ 0 →
    Holds w' ((a, n) :: o) ∧ a + n * pageSize ≤ 0x10000000000000000
      ∧ ∀ r ∈ o, r.1 + r.2 * pageSize ≤ a ∨ a + n * pageSize ≤ r.1
  refuse : ∀ w o n w', Holds w o → 1 ≤ n → P.alloc w n = (0, w') → Holds w' o
  free : ∀ w o a n, Holds w ((a, n) :: o) → Holds (P.free w a n) o

/-- A call of the kernel, or a write to memory that it holds. -/
inductive Step (P : Plugs W) : State W → Call → State W → Prop
  | malloc {s s' : State W} {fuel size p : Nat} : s.malloc P fuel size = some (p, s') →
      Step P s (.malloc size p) s'
  | calloc {s s' : State W} {fuel nobj size p : Nat} : s.calloc P fuel nobj size = some (p, s') →
      Step P s (.calloc nobj size p) s'
  | realloc {s s' : State W} {fuel ptr size p : Nat} : s.realloc P fuel ptr size = some (p, s') →
      Step P s (.realloc ptr size p) s'
  | free {s : State W} {p : Nat} : Step P s (.free p) (s.free P p)
  | write {s : State W} {p i : Nat} {v : BitVec 8} :
      Step P s (.write p i v) { s with mem := fun x => if x = p + i then v else s.mem x }

/-- The sizes `calloc` takes: its `int` must not wrap. -/
def maxZeroed : Nat := 0x80000000 - 1

/-- A run of callers that keep to what they may ask for. -/
abbrev Session (P : Plugs W) (s₀ : State W) : List Call → State W → Prop :=
  GuardedRun (Step P) (fun hist _ c => Allowed maxRequest maxZeroed (ledger hist) c) s₀

/-! ## §2. The invariant. -/

/-- The blocks of a heap. -/
def blocksOf (h : List Chunk) : List Block := h.flatMap Chunk.blocks

/-- The page runs of a heap. -/
def runsOf (h : List Chunk) : List (Nat × Nat) := h.map fun c => (c.base, c.pages)

theorem mem_blocksOf {h : List Chunk} {b : Block} : b ∈ blocksOf h ↔ ∃ c ∈ h, b ∈ c.blocks :=
  List.mem_flatMap

/-- **The state is right for a ledger**: the headers in memory stand for `h`, whose blocks
are the allocations of the ledger and whose pages are those the plugs handed out. -/
structure Sound {P : Plugs W} (L : Lawful P) (l : Ledger) (s : State W) (h : List Chunk) :
    Prop where
  represents : Represents s h
  busy : ∀ c ∈ h, c.blocks ≠ []
  owned : L.Holds s.world (runsOf h)
  held : ∀ p n, (∃ bs, l p = some bs ∧ bs.length = n) ↔ ∃ b ∈ blocksOf h, b.ptr = p ∧ b.req = n
  agrees : Agrees s.mem l

section Blocks

variable {P : Plugs W} {L : Lawful P} {l : Ledger} {s s' : State W} {h h' : List Chunk}
  {b d : Block}

/-- The numbers of a block of the heap. -/
theorem Represents.block (hr : Represents s h) (hb : b ∈ blocksOf h) :
    0 < b.ptr ∧ b.ptr + b.req ≤ b.stop ∧ b.addr < b.ptr ∧ b.ptr < b.stop := by
  obtain ⟨c, hc, hb⟩ := mem_blocksOf.mp hb
  have hfacts := (hr.ok c hc).block hb
  omega

/-- Two blocks of the heap share no byte. -/
theorem Represents.blocks_apart (hr : Represents s h) (hb : b ∈ blocksOf h) (hd : d ∈ blocksOf h)
    (hne : b ≠ d) : b.stop ≤ d.addr ∨ d.stop ≤ b.addr := by
  obtain ⟨c, hc, hb⟩ := mem_blocksOf.mp hb
  obtain ⟨e, he, hd⟩ := mem_blocksOf.mp hd
  by_cases hce : c = e
  · subst hce
    exact (hr.ok c hc).packed.apart hb hd hne
  · have hbfacts := (hr.ok c hc).block hb
    have hdfacts := (hr.ok e he).block hd
    have hapart := hr.apart_of_ne hc he hce
    unfold Chunk.Apart at hapart
    omega

theorem Represents.ptr_inj (hr : Represents s h) (hb : b ∈ blocksOf h) (hd : d ∈ blocksOf h)
    (heq : b.ptr = d.ptr) : b = d := by
  by_contra hne
  have hbfacts := hr.block hb
  have hdfacts := hr.block hd
  have hapart := hr.blocks_apart hb hd hne
  omega

/-- The bytes of a block are none of the allocator's. -/
theorem Represents.outside_block (hr : Represents s h) (hb : b ∈ blocksOf h) {i : Nat}
    (hi : i < b.req) : Outside h (b.ptr + i) := by
  have hfacts := hr.block hb
  obtain ⟨c, hc, hb⟩ := mem_blocksOf.mp hb
  exact hr.outside hc hb (by omega) (by omega)

theorem Sound.block_of (hs : Sound L l s h) {p : Nat} {bs : Contents} (hp : l p = some bs) :
    ∃ b ∈ blocksOf h, b.ptr = p ∧ b.req = bs.length :=
  (hs.held p bs.length).mp ⟨bs, hp, rfl⟩

theorem Sound.held_of (hs : Sound L l s h) (hb : b ∈ blocksOf h) :
    ∃ bs, l b.ptr = some bs ∧ bs.length = b.req :=
  (hs.held b.ptr b.req).mpr ⟨b, hb, rfl, rfl⟩

theorem Sound.null (hs : Sound L l s h) : l 0 = none := by
  cases hnull : l 0 with
  | none => rfl
  | some bs =>
      obtain ⟨b, hb, hptr, -⟩ := hs.block_of hnull
      have hfacts := hs.represents.block hb
      omega

/-- **The bytes of a block that stays** are left alone by what leaves the bytes outside the
allocator's alone. -/
theorem Represents.frame_block (hr : Represents s h) (hr' : Represents s' h')
    (hmem : ∀ x, Outside h x → Outside h' x → s'.mem x = s.mem x) (hd : d ∈ blocksOf h)
    (hd' : d ∈ blocksOf h') {i : Nat} (hi : i < d.req) : s'.mem (d.ptr + i) = s.mem (d.ptr + i) :=
  hmem _ (hr.outside_block hd hi) (hr'.outside_block hd' hi)

/-- **A block in the ledger**, new or with other bytes. -/
theorem Sound.put (hs : Sound L l s h) (hr' : Represents s' h') (hbusy : ∀ c ∈ h', c.blocks ≠ [])
    (howned : L.Holds s'.world (runsOf h'))
    (hframe : ∀ d ∈ blocksOf h, d.ptr ≠ b.ptr → ∀ i, i < d.req →
      s'.mem (d.ptr + i) = s.mem (d.ptr + i))
    (hblocks : ∀ d, d ∈ blocksOf h' ↔ d = b ∨ (d ∈ blocksOf h ∧ d.ptr ≠ b.ptr)) {bs : Contents}
    (hlen : bs.length = b.req) (hbytes : ∀ i v, bs[i]? = some (some v) → s'.mem (b.ptr + i) = v) :
    Sound L (l.put b.ptr bs) s' h' := by
  have hb : b ∈ blocksOf h' := (hblocks b).mpr (Or.inl rfl)
  refine ⟨hr', hbusy, howned, fun p n => ?_, ?_⟩
  · by_cases hp : p = b.ptr
    · subst hp
      constructor
      · rintro ⟨cs, hcs, rfl⟩
        rw [put_same, Option.some.injEq] at hcs
        exact ⟨b, hb, rfl, hcs ▸ hlen.symm⟩
      · rintro ⟨d, hd, hptr, rfl⟩
        obtain rfl := hr'.ptr_inj hd hb hptr
        exact ⟨bs, put_same, hlen⟩
    · rw [put_other hp, hs.held p n]
      constructor
      · rintro ⟨d, hd, hptr, hreq⟩
        exact ⟨d, (hblocks d).mpr (Or.inr ⟨hd, fun heq => hp (hptr ▸ heq)⟩), hptr, hreq⟩
      · rintro ⟨d, hd, hptr, hreq⟩
        rcases (hblocks d).mp hd with rfl | ⟨hd, -⟩
        · exact absurd hptr.symm hp
        · exact ⟨d, hd, hptr, hreq⟩
  · refine hs.agrees.put (fun q cs i hq hcs hi => ?_) hbytes
    obtain ⟨d, hd, hptr, hreq⟩ := hs.block_of hcs
    rw [← hptr]
    exact hframe d hd (fun heq => hq (hptr ▸ heq)) i (hreq ▸ hi)

/-- **A block less.** -/
theorem Sound.drop (hs : Sound L l s h) (hb : b ∈ blocksOf h) (hr' : Represents s' h')
    (hbusy : ∀ c ∈ h', c.blocks ≠ []) (howned : L.Holds s'.world (runsOf h'))
    (hmem : ∀ x, Outside h x → Outside h' x → s'.mem x = s.mem x)
    (hblocks : ∀ d, d ∈ blocksOf h' ↔ d ∈ blocksOf h ∧ d ≠ b) :
    Sound L (l.drop b.ptr) s' h' := by
  refine ⟨hr', hbusy, howned, fun p n => ?_, ?_⟩
  · by_cases hp : p = b.ptr
    · subst hp
      rw [drop_same]
      constructor
      · rintro ⟨cs, hcs, -⟩
        exact absurd hcs (by simp)
      · rintro ⟨d, hd, hptr, -⟩
        obtain ⟨hd, hne⟩ := (hblocks d).mp hd
        exact absurd (hs.represents.ptr_inj hd hb hptr) hne
    · rw [drop_other hp, hs.held p n]
      constructor
      · rintro ⟨d, hd, hptr, hreq⟩
        refine ⟨d, (hblocks d).mpr ⟨hd, fun heq => hp ?_⟩, hptr, hreq⟩
        rw [← hptr, heq]
      · rintro ⟨d, hd, hptr, hreq⟩
        exact ⟨d, ((hblocks d).mp hd).1, hptr, hreq⟩
  · refine hs.agrees.drop fun q cs i hq hcs hi => ?_
    obtain ⟨d, hd, hptr, hreq⟩ := hs.block_of hcs
    have hd' : d ∈ blocksOf h' := (hblocks d).mpr ⟨hd, fun heq => hq (by rw [← hptr, heq])⟩
    rw [← hptr]
    exact hs.represents.frame_block hr' hmem hd hd' (hreq ▸ hi)

/-- **A write to a block**, over the bytes it was asked for. -/
theorem Sound.fill (hs : Sound L l s h) (hb : b ∈ blocksOf h) {m : FlatMemory} {bs : Contents}
    (hlen : bs.length = b.req) (hm : ∀ x, x < b.ptr ∨ b.ptr + b.req ≤ x → m x = s.mem x)
    (hbytes : ∀ i v, bs[i]? = some (some v) → m (b.ptr + i) = v) :
    Sound L (l.put b.ptr bs) { s with mem := m } h := by
  obtain ⟨c, hc, hbc⟩ := mem_blocksOf.mp hb
  have hr' := hs.represents.write hc hbc hm
  refine hs.put hr' hs.busy hs.owned (fun d hd hne i hi => hm _ ?_) (fun d => ?_) hlen hbytes
  · -- the other blocks lie elsewhere
    have hapart := hs.represents.blocks_apart hd hb (fun heq => hne (heq ▸ rfl))
    have hdfacts := hs.represents.block hd
    have hbfacts := hs.represents.block hb
    omega
  · constructor
    · intro hd
      by_cases hptr : d.ptr = b.ptr
      · exact Or.inl (hs.represents.ptr_inj hd hb hptr)
      · exact Or.inr ⟨hd, hptr⟩
    · rintro (rfl | ⟨hd, -⟩)
      · exact hb
      · exact hd

end Blocks

/-! ## §3. The calls, one by one. -/

section Calls

attribute [local irreducible] State.pagesFor

variable {P : Plugs W} {L : Lawful P} {l : Ledger} {s s' : State W} {h h' h₁ h₂ : List Chunk}
  {b : Block} {c d : Chunk} {l₁ l₂ : List Block}

/-- The blocks of a heap one of whose chunks has a block more. -/
theorem blocksOf_insert {base pages : Nat} :
    (blocksOf (h₁ ++ ⟨base, pages, l₁ ++ b :: l₂⟩ :: h₂)).Perm
      (b :: blocksOf (h₁ ++ ⟨base, pages, l₁ ++ l₂⟩ :: h₂)) := by
  unfold blocksOf
  simp only [List.flatMap_append, List.flatMap_cons]
  grind

/-- The plugs answer with pages that are none of the heap's. -/
theorem Sound.freshAnswer (hs : Sound L l s h) {n : Nat} (hn : 1 ≤ n) :
    FreshAnswer P s.world h n := by
  intro a w' halloc ha
  obtain ⟨-, hstop, hapart⟩ := L.alloc _ _ n a w' hs.owned hn halloc ha
  exact ⟨Nat.pos_of_ne_zero ha, hstop, fun c hc => hapart _ (List.mem_map_of_mem hc)⟩

theorem Represents.blocks_nodup (hr : Represents s h) : (blocksOf h).Nodup := by
  refine List.nodup_flatMap.mpr ⟨fun c hc => ?_, ?_⟩
  · exact List.Nodup.of_map Block.addr (hr.ok c hc).addrs_nodup
  · refine hr.apart.imp_of_mem fun hc hd hapart b hb hb' => ?_
    have hbfacts := (hr.ok _ hc).block hb
    have hbfacts' := (hr.ok _ hd).block hb'
    unfold Chunk.Apart at hapart
    omega

theorem newBlock_ptr (a size : Nat) : (newBlock a size).ptr ≠ 0 := by
  have hle : a + 40 + 16 ≤ (newBlock a size).ptr := (alignPtr_bounds (a + 40)).1
  omega

/-- The state after `malloc`, in terms of blocks and pages. -/
theorem Sound.allocates (hs : Sound L l s h) {size p : Nat} {w' : W} (hsize : size ≤ maxRequest)
    (halloc : Allocates P s.world h size p w' h') :
    (p = 0 ∧ h' = h ∧ L.Holds w' (runsOf h'))
      ∨ (p ≠ 0 ∧ (∀ c ∈ h', c.blocks ≠ []) ∧ L.Holds w' (runsOf h')
        ∧ ∃ b, b.ptr = p ∧ b.req = size ∧ (blocksOf h').Perm (b :: blocksOf h)) := by
  have hpages : 1 ≤ State.pagesFor (size + 32) :=
    Nat.le_trans (by decide) (pagesFor_bounds (Nat.add_le_add_right hsize 32)).1
  cases halloc with
  | @placed h₁ h₂ d l₁ l₂ hh hblocks _ =>
      subst hh
      refine Or.inr ⟨newBlock_ptr _ _, ?_, ?_, _, rfl, rfl, ?_⟩
      · intro c hc
        rcases Represents.mem_mid_cases hc with rfl | hc
        · simp
        · exact hs.busy c (Represents.mem_mid hc)
      · have howned := hs.owned
        unfold runsOf at howned ⊢
        rw [List.map_append, List.map_cons] at howned ⊢
        exact howned
      · obtain ⟨base, pages, blocks⟩ := d
        obtain rfl : blocks = l₁ ++ l₂ := hblocks
        exact blocksOf_insert
  | @grown a w' _ hw ha =>
      obtain ⟨howned, -⟩ := L.alloc _ _ _ _ _ hs.owned hpages hw ha
      refine Or.inr ⟨newBlock_ptr _ _, ?_, ?_, _, rfl, rfl, ?_⟩
      · intro c hc
        rcases List.mem_append.mp hc with hc | hc
        · exact hs.busy c hc
        · rw [List.mem_singleton.mp hc]
          simp
      · unfold runsOf
        rw [List.map_append, List.map_singleton]
        exact L.perm _ _ _ howned (List.perm_append_singleton _ _).symm
      · unfold blocksOf
        rw [List.flatMap_append, List.flatMap_singleton]
        exact List.perm_append_singleton _ _
  | failed _ hw =>
      exact Or.inl ⟨rfl, rfl, L.refuse _ _ _ _ hs.owned hpages hw⟩

/-- The result does not depend on the number of rounds that are allowed. -/
theorem mallocSize_unique {fuel fuel' req size : Nat} {r r' : Nat × State W}
    (hr : s.mallocSize P fuel req size = some r) (hr' : s.mallocSize P fuel' req size = some r') :
    r = r' := by
  obtain ⟨t, ht⟩ : ∃ t : State W, ∀ fuel, s.mallocSize P fuel req size
      = if t.memRoot = 0 then some (0, t)
        else Loop.run (Walk.round P req size) fuel (t.startWalk size) := ⟨_, fun _ => rfl⟩
  rw [ht] at hr hr'
  by_cases hroot : t.memRoot = 0
  · rw [if_pos hroot] at hr hr'
    exact Option.some.inj (hr.symm.trans hr')
  · rw [if_neg hroot] at hr hr'
    exact Loop.Returns.unique ⟨fuel, hr⟩ ⟨fuel', hr'⟩

theorem malloc_unique {fuel fuel' size : Nat} {r r' : Nat × State W}
    (hr : s.malloc P fuel size = some r) (hr' : s.malloc P fuel' size = some r') : r = r' := by
  unfold State.malloc at hr hr'
  by_cases hzero : (size + (alignment + alignInfo)) % 0x10000000000000000 = 0
  · simp only [if_pos hzero] at hr hr'
    exact mallocSize_unique hr hr'
  · simp only [if_neg hzero] at hr hr'
    exact mallocSize_unique hr hr'

/-- **`malloc`** in a run. -/
theorem Sound.malloc (hs : Sound L l s h) {size fuel p : Nat} (hsize : size ≤ maxRequest)
    (hmalloc : s.malloc P fuel size = some (p, s')) :
    (p = 0 ∧ ∃ h', Sound L l s' h') ∨ (p ≠ 0 ∧ l p = none
      ∧ ∃ h' b, Sound L (l.put p (List.replicate size none)) s' h' ∧ b ∈ blocksOf h'
        ∧ b.ptr = p ∧ b.req = size) := by
  have hpages : 1 ≤ State.pagesFor (size + 32) :=
    Nat.le_trans (by decide) (pagesFor_bounds (Nat.add_le_add_right hsize 32)).1
  obtain ⟨fuel', r, hr, h', halloc, hr', hmem⟩ := malloc_spec hs.represents hsize
    (hs.freshAnswer hpages)
  obtain rfl := malloc_unique hmalloc hr
  rcases hs.allocates hsize halloc with ⟨hp, rfl, howned⟩ | ⟨hp, hbusy, howned, b, hptr, hreq, hperm⟩
  · -- nothing was handed out
    refine Or.inl ⟨hp, h', hr', hs.busy, howned, hs.held, ?_⟩
    intro q bs i v hq hv
    obtain ⟨d, hd, hdptr, hdreq⟩ := hs.block_of hq
    have hi : i < d.req := hdreq ▸ (List.getElem?_eq_some_iff.mp hv).1
    rw [← hdptr, hs.represents.frame_block hr' hmem hd hd hi, hdptr]
    exact hs.agrees q bs i v hq hv
  · have hnodup := hperm.nodup_iff.mp hr'.blocks_nodup
    have hb : b ∈ blocksOf h' := hperm.mem_iff.mpr List.mem_cons_self
    have hptr : b.ptr = p := hptr
    have hnew : ∀ d ∈ blocksOf h, d.ptr ≠ b.ptr := by
      intro d hd heq
      obtain rfl := hr'.ptr_inj (hperm.mem_iff.mpr (List.mem_cons_of_mem b hd)) hb heq
      exact (List.nodup_cons.mp hnodup).1 hd
    refine Or.inr ⟨hp, ?_, h', b, ?_, hb, hptr, hreq⟩
    · cases hlp : l p with
      | none => rfl
      | some bs =>
          obtain ⟨d, hd, hdptr, -⟩ := hs.block_of hlp
          exact absurd (hdptr.trans hptr.symm) (hnew d hd)
    · rw [← hptr]
      refine hs.put hr' hbusy howned (fun d hd _ i hi => ?_) (fun d => ?_) ?_ ?_
      · exact hs.represents.frame_block hr' hmem hd
          (hperm.mem_iff.mpr (List.mem_cons_of_mem b hd)) hi
      · rw [hperm.mem_iff, List.mem_cons]
        exact or_congr_right ⟨fun hd => ⟨hd, hnew d hd⟩, And.left⟩
      · rw [List.length_replicate, hreq]
      · exact fun i v hv => absurd hv replicate_unknown

/-- The state after `free`, in terms of blocks and pages. -/
theorem Sound.frees (hs : Sound L l s h) {w' : W} (hfrees : Frees P s.world h b w' h') :
    (∀ c ∈ h', c.blocks ≠ []) ∧ L.Holds w' (runsOf h')
      ∧ (blocksOf h).Perm (b :: blocksOf h') := by
  cases hfrees with
  | @kept h₁ h₂ d l₁ l₂ hh hblocks hne =>
      subst hh
      refine ⟨?_, ?_, ?_⟩
      · intro c hc
        rcases Represents.mem_mid_cases hc with rfl | hc
        · exact hne
        · exact hs.busy c (Represents.mem_mid hc)
      · have howned := hs.owned
        unfold runsOf at howned ⊢
        rw [List.map_append, List.map_cons] at howned ⊢
        exact howned
      · obtain ⟨base, pages, blocks⟩ := d
        obtain rfl : blocks = l₁ ++ b :: l₂ := hblocks
        exact blocksOf_insert
  | @emptied h₁ h₂ d hh hblocks =>
      subst hh
      have hperm : (runsOf (h₁ ++ d :: h₂)).Perm ((d.base, d.pages) :: runsOf (h₁ ++ h₂)) := by
        unfold runsOf
        rw [List.map_append, List.map_cons, List.map_append]
        exact List.perm_middle
      refine ⟨fun c hc => hs.busy c (Represents.mem_mid hc),
        L.free _ _ _ _ (L.perm _ _ _ hs.owned hperm), ?_⟩
      · unfold blocksOf
        simp only [List.flatMap_append, List.flatMap_cons, hblocks]
        exact List.perm_middle

/-- **`free`** in a run. -/
theorem Sound.free (hs : Sound L l s h) (hb : b ∈ blocksOf h) :
    ∃ h', Sound L (l.drop b.ptr) (s.free P b.ptr) h' ∧ (blocksOf h).Perm (b :: blocksOf h') := by
  obtain ⟨c, hc, hbc⟩ := mem_blocksOf.mp hb
  obtain ⟨h', hfrees, hr', hmem⟩ := free_spec (P := P) hs.represents hc hbc
  obtain ⟨hbusy, howned, hperm⟩ := hs.frees hfrees
  have hnodup := List.nodup_cons.mp (hperm.nodup_iff.mp hs.represents.blocks_nodup)
  refine ⟨h', hs.drop hb hr' hbusy howned hmem (fun d => ?_), hperm⟩
  rw [hperm.mem_iff, List.mem_cons]
  constructor
  · intro hd
    exact ⟨Or.inr hd, fun heq => hnodup.1 (heq ▸ hd)⟩
  · rintro ⟨hd | hd, hne⟩
    · exact absurd hd hne
    · exact hd

/-- `calloc` of a size that fits its `int`. -/
theorem calloc_eq {fuel nobj size : Nat} (hn : nobj * size ≤ maxZeroed) :
    s.calloc P fuel nobj size = (s.malloc P fuel (nobj * size)).bind fun r =>
      (State.liballocMemset r.2.mem r.1 0 (nobj * size)).map fun mem =>
        (r.1, { r.2 with mem := mem }) := by
  unfold maxZeroed at hn
  have hmod : nobj * size % 0x100000000 = nobj * size := Nat.mod_eq_of_lt (by omega)
  unfold State.calloc
  simp only [hmod]
  rw [if_pos (by omega)]

/-- The bytes after `liballoc_memset`. -/
theorem liballocMemset_eq {m m' : FlatMemory} {dest n : Nat}
    (h : State.liballocMemset m dest 0 n = some m') (x : Nat) :
    m' x = if dest ≤ x ∧ x < dest + n then 0 else m x := by
  unfold State.liballocMemset at h
  by_cases hzero : n = 0
  · rw [if_pos hzero, Option.some.injEq] at h
    rw [if_neg (by omega), h]
  · rw [if_neg hzero] at h
    split at h
    · exact absurd h (by simp)
    · rw [Option.some.injEq] at h
      rw [← h]

/-- **`calloc`** in a run. -/
theorem Sound.calloc (hs : Sound L l s h) {nobj size fuel p : Nat} (hn : nobj * size ≤ maxZeroed)
    (hcalloc : s.calloc P fuel nobj size = some (p, s')) :
    (p = 0 ∧ ∃ h', Sound L l s' h') ∨ (p ≠ 0 ∧ l p = none
      ∧ ∃ h', Sound L (l.put p (List.replicate (nobj * size) (some 0))) s' h') := by
  rw [calloc_eq hn] at hcalloc
  obtain ⟨r, hmalloc, hmap⟩ := Option.bind_eq_some_iff.mp hcalloc
  obtain ⟨m, hmemset, heq⟩ := Option.map_eq_some_iff.mp hmap
  obtain ⟨q, t⟩ := r
  simp only [Prod.mk.injEq] at heq
  obtain ⟨rfl, rfl⟩ := heq
  have hm := liballocMemset_eq hmemset
  have hlimit : nobj * size ≤ maxRequest := by
    unfold maxZeroed at hn
    unfold maxRequest
    omega
  rcases hs.malloc hlimit hmalloc with ⟨hq, h', hs'⟩ | ⟨hq, hfresh, h', b, hs', hb, hptr, hreq⟩
  · -- a null that was not written to
    refine Or.inl ⟨hq, h', ?_⟩
    have hzero : nobj * size = 0 := by
      by_contra hne
      unfold State.liballocMemset at hmemset
      rw [if_neg hne, if_pos (Or.inl hq)] at hmemset
      exact absurd hmemset (by simp)
    have hsame : m = t.mem := by
      funext x
      rw [hm x, hzero, if_neg (by omega)]
    rw [hsame]
    exact hs'
  · refine Or.inr ⟨hq, hfresh, h', ?_⟩
    subst hptr
    have hlen : (List.replicate (nobj * size) (some (0 : BitVec 8))).length = b.req := by
      rw [List.length_replicate, hreq]
    have hfill := hs'.fill (m := m) hb hlen (fun x hx => ?_) (fun i v hv => ?_)
    · have hput : (l.put b.ptr (List.replicate (nobj * size) none)).put b.ptr
          (List.replicate (nobj * size) (some 0)) = l.put b.ptr (List.replicate (nobj * size) (some 0)) :=
        put_put
      rw [hput] at hfill
      exact hfill
    · rw [hm x, if_neg (by omega)]
    · rw [List.getElem?_replicate] at hv
      split at hv
      · next hi =>
        rw [hm, if_pos (by omega)]
        simpa using hv
      · exact absurd hv (by simp)

/-- The bytes after `liballoc_memcpy`. -/
theorem liballocMemcpy_eq {m m' : FlatMemory} {dest src n : Nat}
    (hapart : src + n ≤ dest ∨ dest + n ≤ src)
    (h : State.liballocMemcpy m dest src n = some m') (x : Nat) :
    m' x = if dest ≤ x ∧ x < dest + n then m (src + (x - dest)) else m x := by
  unfold State.liballocMemcpy at h
  by_cases hzero : n = 0
  · rw [if_pos hzero, Option.some.injEq] at h
    rw [if_neg (by omega), h]
  · rw [if_neg hzero] at h
    split at h
    · exact absurd h (by simp)
    · simp only [Option.some.injEq] at h
      have hwords : ∀ y, copyUnits 4 (n / 4) m dest src y
          = if dest ≤ y ∧ y < dest + n / 4 * 4 then m (src + (y - dest)) else m y :=
        copyUnits_spec (by omega)
      rw [← h, copyUnits_spec (by omega)]
      -- the rest is read behind the words
      by_cases hrest : dest + n / 4 * 4 ≤ x ∧ x < dest + n / 4 * 4 + n % 4 * 1
      · rw [if_pos hrest, if_pos (by omega), hwords, if_neg (by omega)]
        congr 1
        omega
      · rw [if_neg hrest, hwords]
        by_cases hword : dest ≤ x ∧ x < dest + n / 4 * 4
        · rw [if_pos hword, if_pos (by omega)]
        · rw [if_neg hword, if_neg (by omega)]

/-- **A block that shrinks** in a run. -/
theorem Sound.resize (hs : Sound L l s h) (hb : b ∈ blocksOf h) {size : Nat} (hle : size ≤ b.req)
    {bs : Contents} (hbs : l b.ptr = some bs) :
    ∃ h', Sound L (l.put b.ptr (HeapCalls.resize size bs)) (s.set b.addr Minor.reqSize size) h' := by
  obtain ⟨c, hc, hbc⟩ := mem_blocksOf.mp hb
  obtain ⟨h₁, h₂, rfl⟩ := List.append_of_mem hc
  obtain ⟨l₁, l₂, hblocks⟩ := List.append_of_mem hbc
  obtain ⟨hr', hmem⟩ := hs.represents.resize hblocks hle
  have hperm : (blocksOf (h₁ ++ c :: h₂)).Perm
      (b :: blocksOf (h₁ ++ ⟨c.base, c.pages, l₁ ++ l₂⟩ :: h₂)) := by
    obtain ⟨base, pages, blocks⟩ := c
    obtain rfl : blocks = l₁ ++ b :: l₂ := hblocks
    exact blocksOf_insert
  have hnodup := List.nodup_cons.mp (hperm.nodup_iff.mp hs.represents.blocks_nodup)
  refine ⟨_, hs.put (b := b.resized size) hr' ?_ ?_ (fun d hd _ i hi => ?_) (fun d => ?_) ?_ ?_⟩
  · intro e he
    rcases Represents.mem_mid_cases he with rfl | he
    · simp
    · exact hs.busy e (Represents.mem_mid he)
  · have howned := hs.owned
    unfold runsOf at howned ⊢
    rw [List.map_append, List.map_cons] at howned ⊢
    exact howned
  · exact hmem _ (hs.represents.outside_block hd hi)
  · rw [blocksOf_insert.mem_iff, hperm.mem_iff, List.mem_cons, List.mem_cons]
    refine or_congr_right ⟨fun hd => ⟨Or.inr hd, fun heq => ?_⟩, ?_⟩
    · have hd' := hperm.mem_iff.mpr (List.mem_cons_of_mem b hd)
      obtain rfl := hs.represents.ptr_inj hd' hb heq
      exact hnodup.1 hd
    · rintro ⟨rfl | hd, hne⟩
      · exact absurd rfl hne
      · exact hd
  · exact resize_length
  · intro i v hv
    obtain ⟨hi, hv⟩ := resize_known hv
    have hlt : i < b.req := by omega
    show (s.set b.addr Minor.reqSize size).mem (b.ptr + i) = v
    rw [hmem _ (hs.represents.outside_block hb hlt)]
    exact hs.agrees b.ptr bs i v hbs hv

/-- **What `realloc` does** with a pointer that is held and a size that is not 0. -/
theorem realloc_held (hr : Represents s h) (hb : b ∈ blocksOf h) {fuel size : Nat}
    (hsize : size ≠ 0) :
    s.realloc P fuel b.ptr size
      = if size ≤ b.req then some (b.ptr, s.set b.addr Minor.reqSize size)
        else (s.malloc P fuel size).bind fun r =>
          (State.liballocMemcpy r.2.mem r.1 b.ptr b.req).map fun mem =>
            (r.1, { r.2 with mem := mem }.free P b.ptr) := by
  obtain ⟨c, hc, hbc⟩ := mem_blocksOf.mp hb
  obtain ⟨hptr, hmin⟩ := header_of_ptr hr hc hbc
  have hminor := (hr.chunks c hc).minors b hbc
  have hmagic : s.get b.addr Minor.magic = magic := hminor.magic
  have hreq : s.get b.addr Minor.reqSize = b.req := hminor.reqSize
  unfold State.realloc
  rw [if_neg hsize, if_neg hptr]
  simp only [hmin, hreq]
  rw [if_neg (not_not.mpr hmagic)]

/-- `free` of null counts a warning. -/
theorem Sound.freeNull (hs : Sound L l s h) : Sound L l (s.free P 0) h := by
  have hfree : s.free P 0 = { s with warningCount := s.warningCount + 1 } := if_pos rfl
  rw [hfree]
  have hr := hs.represents
  exact ⟨hr.congr (fun _ _ => rfl) rfl hr.bestBet rfl rfl, hs.busy, hs.owned, hs.held,
    hs.agrees⟩

/-- **A block that has to move** in a run. -/
theorem Sound.move (hs : Sound L l s h) (hb : b ∈ blocksOf h) {bs : Contents}
    (hbs : l b.ptr = some bs) {fuel size q : Nat} {t : State W} {m : FlatMemory}
    (hsize : size ≤ maxRequest) (hlt : b.req < size) (hmalloc : s.malloc P fuel size = some (q, t))
    (hcopy : State.liballocMemcpy t.mem q b.ptr b.req = some m) :
    (q ≠ 0 → l q = none) ∧ ∃ h', Sound L ((l.drop b.ptr).answered q (HeapCalls.resize size bs))
      ({ t with mem := m }.free P b.ptr) h' := by
  have hlen : bs.length = b.req := by
    obtain ⟨cs, hcs, hlen⟩ := hs.held_of hb
    obtain rfl : cs = bs := Option.some.inj (hcs.symm.trans hbs)
    exact hlen
  rcases hs.malloc hsize hmalloc with ⟨rfl, h', hs'⟩ | ⟨hq, hfresh, h', d, hs', hd, hptr, hreq⟩
  · -- no memory: with no bytes to copy the old block is freed all the same
    refine ⟨fun hne => absurd rfl hne, ?_⟩
    have hzero : b.req = 0 := by
      by_contra hne
      unfold State.liballocMemcpy at hcopy
      rw [if_neg hne, if_pos rfl] at hcopy
      exact absurd hcopy (by simp)
    rw [hzero] at hcopy
    obtain rfl : t.mem = m := Option.some.inj hcopy
    obtain ⟨e, he, heptr, -⟩ := hs'.block_of hbs
    obtain ⟨h'', hs'', -⟩ := hs'.free (P := P) he
    rw [heptr] at hs''
    exact ⟨h'', hs''⟩
  · have hne : b.ptr ≠ q := by
      intro heq
      rw [← heq, hbs] at hfresh
      exact absurd hfresh (by simp)
    refine ⟨fun _ => hfresh, ?_⟩
    -- the old block is still there
    obtain ⟨e, he, heptr, hereq⟩ := hs'.block_of ((put_other hne).trans hbs)
    have hed : e ≠ d := fun heq => hne (by rw [← heptr, heq, hptr])
    have hapart := hs'.represents.blocks_apart he hd hed
    have hefacts := hs'.represents.block he
    have hdfacts := hs'.represents.block hd
    have hm := liballocMemcpy_eq (by omega) hcopy
    have hlen' : (HeapCalls.resize size bs).length = d.req := by rw [resize_length, hreq]
    have hfill := hs'.fill (m := m) hd hlen' (fun x hx => ?_) (fun i v hv => ?_)
    · rw [hptr, put_put] at hfill
      obtain ⟨h'', hs'', -⟩ := hfill.free (P := P) he
      rw [heptr, put_drop hne.symm] at hs''
      refine ⟨h'', ?_⟩
      unfold Ledger.answered
      rw [if_neg hq]
      exact hs''
    · rw [hm, if_neg (by omega)]
    · obtain ⟨hi, hv⟩ := resize_known hv
      have hib : i < bs.length := (List.getElem?_eq_some_iff.mp hv).1
      rw [hptr, hm, if_pos (by omega), Nat.add_sub_cancel_left]
      exact hs'.agrees b.ptr bs i v ((put_other hne).trans hbs) hv

/-- **`realloc`** in a run. -/
theorem Sound.realloc (hs : Sound L l s h) {ptr size fuel q : Nat} (hsize : size ≤ maxRequest)
    (hptr : ptr = 0 ∨ (l ptr).isSome = true) (hrealloc : s.realloc P fuel ptr size = some (q, s')) :
    (q ≠ 0 → q = ptr ∨ l q = none)
      ∧ ∃ h', Sound L (apply l (.realloc ptr size q)) s' h' := by
  by_cases hnull : ptr = 0
  · subst hnull
    -- null is held by no one, and `realloc` is `malloc` or nothing
    have happly : apply l (.realloc 0 size q) = l.answered q (List.replicate size none) := by
      show (l.drop 0).answered q (HeapCalls.resize size ((l 0).getD [])) = _
      rw [hs.null, drop_eq_self hs.null, Option.getD_none, resize_nil]
    rw [happly]
    unfold State.realloc at hrealloc
    by_cases hzero : size = 0
    · rw [if_pos hzero, Option.some.injEq, Prod.mk.injEq] at hrealloc
      obtain ⟨rfl, rfl⟩ := hrealloc
      exact ⟨fun hne => absurd rfl hne, h, hs.freeNull⟩
    · rw [if_neg hzero, if_pos rfl] at hrealloc
      unfold Ledger.answered
      rcases hs.malloc hsize hrealloc with ⟨rfl, h', hs'⟩ | ⟨hq, hfresh, h', d, hs', -⟩
      · exact ⟨fun hne => absurd rfl hne, h', hs'⟩
      · rw [if_neg hq]
        exact ⟨fun _ => Or.inr hfresh, h', hs'⟩
  · obtain ⟨bs, hbs⟩ := Option.isSome_iff_exists.mp (hptr.resolve_left hnull)
    obtain ⟨b, hb, rfl, hreq⟩ := hs.block_of hbs
    have happly : apply l (.realloc b.ptr size q)
        = (l.drop b.ptr).answered q (HeapCalls.resize size bs) := by
      show (l.drop b.ptr).answered q (HeapCalls.resize size ((l b.ptr).getD [])) = _
      rw [hbs, Option.getD_some]
    rw [happly]
    by_cases hzero : size = 0
    · unfold State.realloc at hrealloc
      rw [if_pos hzero, Option.some.injEq, Prod.mk.injEq] at hrealloc
      obtain ⟨rfl, rfl⟩ := hrealloc
      obtain ⟨h', hs', -⟩ := hs.free (P := P) hb
      exact ⟨fun hne => absurd rfl hne, h', hs'⟩
    · rw [realloc_held hs.represents hb hzero] at hrealloc
      by_cases hle : size ≤ b.req
      · rw [if_pos hle, Option.some.injEq, Prod.mk.injEq] at hrealloc
        obtain ⟨rfl, rfl⟩ := hrealloc
        obtain ⟨h', hs'⟩ := hs.resize hb hle hbs
        refine ⟨fun _ => Or.inl rfl, h', ?_⟩
        unfold Ledger.answered
        rw [if_neg hnull, drop_put]
        exact hs'
      · rw [if_neg hle] at hrealloc
        obtain ⟨r, hmalloc, hmap⟩ := Option.bind_eq_some_iff.mp hrealloc
        obtain ⟨m, hcopy, heq⟩ := Option.map_eq_some_iff.mp hmap
        obtain ⟨q', t⟩ := r
        simp only [Prod.mk.injEq] at heq
        obtain ⟨rfl, rfl⟩ := heq
        obtain ⟨hfresh, hs'⟩ := hs.move hb hbs hsize (by omega) hmalloc hcopy
        exact ⟨fun hq => Or.inr (hfresh hq), hs'⟩

/-- **A call keeps the invariant**, and answers what no one holds. -/
theorem Sound.step (hs : Sound L l s h) {c : Call} (hc : Allowed maxRequest maxZeroed l c)
    (hstep : Step P s c s') : Fresh l c ∧ ∃ h', Sound L (apply l c) s' h' := by
  cases hstep with
  | malloc hmalloc =>
      show (_ → _) ∧ ∃ h', Sound L (Ledger.answered l _ _) s' h'
      unfold Ledger.answered
      rcases hs.malloc hc hmalloc with ⟨rfl, hs'⟩ | ⟨hp, hfresh, h', _, hs', -⟩
      · exact ⟨fun hne => absurd rfl hne, hs'⟩
      · rw [if_neg hp]
        exact ⟨fun _ => hfresh, h', hs'⟩
  | calloc hcalloc =>
      show (_ → _) ∧ ∃ h', Sound L (Ledger.answered l _ _) s' h'
      unfold Ledger.answered
      rcases hs.calloc hc hcalloc with ⟨rfl, hs'⟩ | ⟨hp, hfresh, hs'⟩
      · exact ⟨fun hne => absurd rfl hne, hs'⟩
      · rw [if_neg hp]
        exact ⟨fun _ => hfresh, hs'⟩
  | realloc hrealloc => exact hs.realloc hc.1 hc.2 hrealloc
  | @free p =>
      refine ⟨trivial, ?_⟩
      show ∃ h', Sound L (l.drop p) _ h'
      rcases hc with rfl | hp
      · rw [drop_eq_self hs.null]
        exact ⟨h, hs.freeNull⟩
      · obtain ⟨bs, hbs⟩ := Option.isSome_iff_exists.mp hp
        obtain ⟨b, hb, rfl, -⟩ := hs.block_of hbs
        obtain ⟨h', hs', -⟩ := hs.free (P := P) hb
        exact ⟨h', hs'⟩
  | @write p i v =>
      obtain ⟨bs, hbs, hi⟩ := hc
      obtain ⟨b, hb, rfl, hreq⟩ := hs.block_of hbs
      refine ⟨trivial, h, ?_⟩
      show Sound L (l.put b.ptr (((l b.ptr).getD []).set i (some v))) _ h
      rw [hbs, Option.getD_some]
      refine hs.fill hb ?_ (fun x hx => if_neg (by omega)) (fun j w hw => ?_)
      · rw [List.length_set, hreq]
      · rcases set_known hw with ⟨rfl, rfl⟩ | ⟨hj, hw⟩
        · exact if_pos rfl
        · rw [if_neg (by omega)]
          exact hs.agrees b.ptr bs j w hbs hw

end Calls

/-! ## §4. Whole runs. -/

section Runs

attribute [local irreducible] State.pagesFor

variable {P : Plugs W} {L : Lawful P} {m : FlatMemory} {w : W} {hist : List Call} {s : State W}

/-- Before the first call. -/
theorem Sound.init (hw : L.Holds w []) : Sound L Ledger.empty (State.init m w) [] := by
  refine ⟨⟨?_, .nil, ?_, trivial, rfl, .inl rfl, rfl, rfl⟩, ?_, hw, fun p n => ?_, ?_⟩
  · exact fun c hc => absurd hc List.not_mem_nil
  · exact fun c hc => absurd hc List.not_mem_nil
  · exact fun c hc => absurd hc List.not_mem_nil
  · constructor
    · rintro ⟨bs, hbs, -⟩
      exact absurd hbs (Option.some_ne_none bs).symm
    · rintro ⟨b, hb, -⟩
      exact absurd hb List.not_mem_nil
  · exact fun p bs i v hp _ => absurd hp (Option.some_ne_none bs).symm

/-- **The invariant of a run.** -/
theorem Sound.run (hw : L.Holds w []) (hrun : Session P (State.init m w) hist s) :
    ∃ h, Sound L (ledger hist) s h := by
  refine GuardedRun.historyInvariant (fun hist s => ∃ h, Sound L (ledger hist) s h)
    ⟨[], Sound.init hw⟩ ?_ hrun
  rintro hist s c s' ⟨h, hs⟩ hc hstep
  exact (hs.step hc hstep).2

/-- Two allocations are a header apart. -/
theorem Sound.apart {l : Ledger} {h : List Chunk} (hs : Sound L l s h) {p q : Nat}
    {bs cs : Contents} (hp : l p = some bs) (hq : l q = some cs) (hne : q ≠ p) :
    p + bs.length + 56 ≤ q ∨ q + cs.length + 56 ≤ p := by
  obtain ⟨b, hb, rfl, hbreq⟩ := hs.block_of hp
  obtain ⟨d, hd, rfl, hdreq⟩ := hs.block_of hq
  have hapart := hs.represents.blocks_apart hb hd (fun heq => hne (heq ▸ rfl))
  have hbfacts := hs.represents.block hb
  have hdfacts := hs.represents.block hd
  obtain ⟨c, hc, hbc⟩ := mem_blocksOf.mp hb
  obtain ⟨e, he, hde⟩ := mem_blocksOf.mp hd
  have hbptr := (hs.represents.ok c hc).block hbc
  have hdptr := (hs.represents.ok e he).block hde
  omega

/-- Where an allocation lies in its pages. -/
theorem Sound.place {l : Ledger} {h : List Chunk} (hs : Sound L l s h) {p : Nat} {bs : Contents}
    (hp : l p = some bs) : p ≠ 0 ∧ p % 16 = 0
      ∧ ∃ r ∈ runsOf h, r.1 + 96 ≤ p ∧ p + bs.length ≤ r.1 + r.2 * pageSize := by
  obtain ⟨b, hb, rfl, hreq⟩ := hs.block_of hp
  have hfacts := hs.represents.block hb
  obtain ⟨c, hc, hbc⟩ := mem_blocksOf.mp hb
  have hbptr := (hs.represents.ok c hc).block hbc
  refine ⟨by omega, alignPtr_mod _, (c.base, c.pages), List.mem_map_of_mem hc, ?_, ?_⟩
  · show c.base + 96 ≤ b.ptr
    omega
  · have hstop : c.stop = c.base + c.pages * pageSize := rfl
    show b.ptr + bs.length ≤ c.base + c.pages * pageSize
    omega

/-- Every page run is kept by an allocation in it. -/
theorem Sound.keeper {l : Ledger} {h : List Chunk} (hs : Sound L l s h) {r : Nat × Nat}
    (hrmem : r ∈ runsOf h) :
    ∃ p bs, l p = some bs ∧ r.1 ≤ p ∧ p + bs.length ≤ r.1 + r.2 * pageSize := by
  have hr := hs.represents
  obtain ⟨c, hc, rfl⟩ := List.mem_map.mp hrmem
  obtain ⟨b, l, hbl⟩ := List.exists_cons_of_ne_nil (hs.busy c hc)
  have hbc : b ∈ c.blocks := hbl ▸ List.mem_cons_self
  obtain ⟨bs, hbs, hlen⟩ := hs.held_of (mem_blocksOf.mpr ⟨c, hc, hbc⟩)
  have hfacts := (hr.ok c hc).block hbc
  have hreq := (hr.ok c hc).req_le hbc
  have hstop : c.stop = c.base + c.pages * pageSize := rfl
  refine ⟨b.ptr, bs, hbs, ?_, ?_⟩
  · show c.base ≤ b.ptr
    omega
  · show b.ptr + bs.length ≤ c.base + c.pages * pageSize
    omega

/-- **An answer of `malloc`**, from a state in order. -/
theorem Sound.answer {l : Ledger} {h : List Chunk} (hs : Sound L l s h) {size : Nat}
    (hsize : size ≤ maxRequest) :
    ∃ fuel p s' h', s.malloc P fuel size = some (p, s')
      ∧ Allocates P s.world h size p s'.world h' ∧ Represents s' h'
      ∧ (p = 0 ↔ (∀ d ∈ h, ¬ d.HasFit (size + 32))
        ∧ (P.alloc s.world (State.pagesFor (size + 32))).1 = 0) := by
  have hpages : 1 ≤ State.pagesFor (size + 32) :=
    Nat.le_trans (by decide) (pagesFor_bounds (Nat.add_le_add_right hsize 32)).1
  obtain ⟨fuel, ⟨p, s'⟩, hmalloc, h', halloc, hr', -⟩ := malloc_spec hs.represents hsize
    (hs.freshAnswer hpages)
  refine ⟨fuel, p, s', h', hmalloc, halloc, hr', ?_⟩
  have halloc : Allocates P s.world h size p s'.world h' := halloc
  generalize s'.world = w' at halloc
  cases halloc with
  | @placed h₁ h₂ d l₁ l₂ hh hblocks hfit =>
      subst hh
      refine iff_of_false (newBlock_ptr _ _) fun hno => ?_
      refine hno.1 d (List.mem_append_right _ List.mem_cons_self) ⟨l₁, l₂, hblocks, ?_⟩
      exact hfit.fits
  | @grown a w' _ hwalloc ha =>
      refine iff_of_false (newBlock_ptr _ _) fun hno => ha ?_
      rw [hwalloc] at hno
      exact hno.2
  | failed hno hwalloc =>
      refine iff_of_true rfl ⟨hno, ?_⟩
      rw [hwalloc]

/-- When `calloc` returns. -/
theorem Sound.calloc_iff {l : Ledger} {h : List Chunk} (hs : Sound L l s h) {nobj size : Nat}
    (hn : nobj * size ≤ maxZeroed) : (∃ p s', Step P s (.calloc nobj size p) s')
      ↔ nobj * size = 0 ∨ ∃ p s', p ≠ 0 ∧ Step P s (.malloc (nobj * size) p) s' := by
  constructor
  · rintro ⟨p, s', hstep⟩
    cases hstep with
    | calloc hcalloc =>
        rw [calloc_eq hn] at hcalloc
        obtain ⟨r, hr, hmap⟩ := Option.bind_eq_some_iff.mp hcalloc
        obtain ⟨m', hmemset, -⟩ := Option.map_eq_some_iff.mp hmap
        by_cases hzero : nobj * size = 0
        · exact Or.inl hzero
        · refine Or.inr ⟨r.1, r.2, fun hnull => ?_, .malloc hr⟩
          unfold State.liballocMemset at hmemset
          rw [if_neg hzero, if_pos (Or.inl hnull)] at hmemset
          exact absurd hmemset (by simp)
  · intro h
    obtain ⟨fuel, r, hr, hwritten⟩ : ∃ fuel r, s.malloc P fuel (nobj * size) = some r
        ∧ (nobj * size = 0 ∨ r.1 ≠ 0) := by
      rcases h with hzero | ⟨p, s', hp, hstep⟩
      · obtain ⟨fuel, p, s', -, hr, -⟩ := hs.answer (show nobj * size ≤ maxRequest by omega)
        exact ⟨fuel, (p, s'), hr, Or.inl hzero⟩
      · cases hstep with
        | @malloc _ fuel _ _ hr => exact ⟨fuel, (p, s'), hr, Or.inr hp⟩
    obtain ⟨m', hmemset⟩ : ∃ m', State.liballocMemset r.2.mem r.1 0 (nobj * size) = some m' := by
      unfold maxZeroed at hn
      unfold State.liballocMemset
      by_cases hzero : nobj * size = 0
      · exact ⟨_, if_pos hzero⟩
      · rw [if_neg hzero, if_neg]
        · exact ⟨_, rfl⟩
        · have hne := hwritten.resolve_left hzero
          omega
    have hcalloc : s.calloc P fuel nobj size = some (r.1, { r.2 with mem := m' }) := by
      rw [calloc_eq hn, hr, Option.bind_some, hmemset, Option.map_some]
    exact ⟨_, _, .calloc hcalloc⟩

/-- When `realloc` returns. -/
theorem Sound.realloc_iff {l : Ledger} {h : List Chunk} (hs : Sound L l s h) {ptr size : Nat}
    {bs : Contents} (hsize : size ≤ maxRequest) (hbs : l ptr = some bs) :
    (∃ q s', Step P s (.realloc ptr size q) s')
      ↔ size ≤ bs.length ∨ bs.length = 0 ∨ ∃ q s', q ≠ 0 ∧ Step P s (.malloc size q) s' := by
  obtain ⟨b, hb, rfl, hreq⟩ := hs.block_of hbs
  by_cases hzero : size = 0
  · -- a `free`
    have hfree : s.realloc P 0 b.ptr size = some (0, s.free P b.ptr) := by
      unfold State.realloc
      exact if_pos hzero
    exact iff_of_true ⟨_, _, .realloc hfree⟩ (Or.inl (by omega))
  · have hrealloc : ∀ fuel, s.realloc P fuel b.ptr size = _ :=
      fun fuel => realloc_held hs.represents hb hzero
    by_cases hle : size ≤ b.req
    · have hplace := (hrealloc 0).trans (if_pos hle)
      exact iff_of_true ⟨_, _, .realloc hplace⟩ (Or.inl (by omega))
    · constructor
      · rintro ⟨q, s', hstep⟩
        cases hstep with
        | realloc hstep =>
            rw [hrealloc, if_neg hle] at hstep
            obtain ⟨r, hr, hmap⟩ := Option.bind_eq_some_iff.mp hstep
            obtain ⟨m', hcopy, -⟩ := Option.map_eq_some_iff.mp hmap
            by_cases hnone : b.req = 0
            · exact Or.inr (Or.inl (by omega))
            · refine Or.inr (Or.inr ⟨r.1, r.2, fun hnull => ?_, .malloc hr⟩)
              unfold State.liballocMemcpy at hcopy
              rw [if_neg hnone, if_pos hnull] at hcopy
              exact absurd hcopy (by simp)
      · intro h
        obtain ⟨fuel, r, hr, hwritten⟩ : ∃ fuel r, s.malloc P fuel size = some r
            ∧ (b.req = 0 ∨ r.1 ≠ 0) := by
          rcases h with hle' | hnone | ⟨q, s', hq, hstep⟩
          · omega
          · obtain ⟨fuel, q, s', -, hr, -⟩ := hs.answer hsize
            exact ⟨fuel, (q, s'), hr, Or.inl (by omega)⟩
          · cases hstep with
            | @malloc _ fuel _ _ hr => exact ⟨fuel, (q, s'), hr, Or.inr hq⟩
        obtain ⟨m', hcopy⟩ : ∃ m', State.liballocMemcpy r.2.mem r.1 b.ptr b.req = some m' := by
          unfold State.liballocMemcpy
          by_cases hnone : b.req = 0
          · exact ⟨_, if_pos hnone⟩
          · rw [if_neg hnone, if_neg (hwritten.resolve_left hnone)]
            exact ⟨_, rfl⟩
        have hmoved : s.realloc P fuel b.ptr size
            = some (r.1, { r.2 with mem := m' }.free P b.ptr) := by
          rw [hrealloc, if_neg hle, hr, Option.bind_some, hcopy, Option.map_some]
        exact ⟨_, _, .realloc hmoved⟩

end Runs

end MierOS.Memory.Liballoc
