/-
  MierOS.Ext2.Map
  **PAGES OF A MAPPED FILE OF EXT2**: `resolve_mapping` of `map.cpp`.

  A page is eight sectors.  A round takes the sectors from `i` on for as long as
  the block of each is the one its distance from the first predicts, and reads
  them with one request; the sector inside the block is worked out ONCE, from
  the offset of the page.  That is right because a round begins on a block
  boundary whenever it does not begin with the page, and a block that is larger
  than a page holds all of it.

  Main results: `scanChunk_spec`, `readRound_spec`,
  `resolve_mapping_reads_file`.
-/
import MierOS.Lib.Loop
import MierOS.Ext2.Rw

namespace MierOS.Ext2

open Lib

/-! ## §1. The code. -/

/-- `FilePage`, for the file that is read. -/
structure FilePage where
  startAddr : Nat
  offset : Nat
  shared : Bool

/-- The content of a `PhysicalPage`. -/
abbrev Page := Nat → Byte

/-- `((addr - mapping.start_addr()) & ~0xFFF) + mapping.offset()`. -/
def fileOffset (mapping : FilePage) (addr : Nat) : Nat :=
  (((addr + (2 ^ 64 - mapping.startAddr)) % 2 ^ 64 &&& 0xFFFFFFFFFFFFF000) + mapping.offset)
    % 2 ^ 64

/-- `sectorsToRead`. -/
def sectorsToRead : Nat := 4096 >>> 9

section Code

variable (mi : MountInfo) (inode : Inode) (blockRead : BlockRead)

/-- The block of sector `i` of a page; the page does not wrap around 2^64. -/
def sectorBlock (offset i : Nat) : Nat :=
  getInodeBlock mi inode ((offset + i <<< 9) >>> (mi.blocksSize + 10) % 2 ^ 32)

/-- The scan for the end of a chunk, with `left` sectors of the page to go. -/
def scanChunk (offset startI chunkStartBlock : Nat) : Nat → Nat → Nat
  | 0, i => i
  | left + 1, i =>
      if sectorBlock mi inode offset i
          = chunkStartBlock + (i - startI) >>> (mi.blocksSize + 1) then
        scanChunk offset startI chunkStartBlock left (i + 1)
      else i

/-- What `block_read` leaves in a page from byte `at` on; its status is not looked at. -/
def store (page : Page) (start : Nat) : Except Errno (List Byte) → Page
  | .error _ => page
  | .ok bytes => fun k =>
      if start ≤ k ∧ k < start + bytes.length then bytes.getD (k - start) 0 else page k

/-- The variables of the loop. -/
structure Filling where
  i : Nat
  page : Page

/-- One round: `--i` at its end and `++i` before the next one cancel. -/
def readRound (offset : Nat) (s : Filling) : Filling ⊕ Page :=
  if s.i < sectorsToRead then
    let startI := s.i
    let chunkStartBlock := sectorBlock mi inode offset startI
    let i := scanChunk mi inode offset startI chunkStartBlock (sectorsToRead - startI) startI
    let continuousSectors := i - startI
    let blockByteOffset := offset &&& (mi.blockSize - 1)
    let sectorOffset := blockByteOffset >>> 9
    let status := blockRead (mi.getLba chunkStartBlock + sectorOffset) continuousSectors
    .inl ⟨i, store s.page (startI <<< 9) status⟩
  else .inr s.page

/-- `resolve_mapping(minor, mapping, addr)`, over `f_shared_pages` of the file and a
new frame that holds `fresh`; `none` when `fuel` rounds are not enough. -/
def resolveMapping (sharedPages : Nat → Option Page) (mapping : FilePage) (addr : Nat)
    (fresh : Page) (fuel : Nat) : Option (Page × (Nat → Option Page)) :=
  let offset := fileOffset mapping addr
  match sharedPages offset with
  | some page => some (page, sharedPages)
  | none =>
      (Loop.run (readRound mi inode blockRead offset) fuel ⟨0, fresh⟩).map fun page =>
        (page, if mapping.shared then Function.update sharedPages offset (some page)
          else sharedPages)

end Code

/-! ## §2. Sectors and blocks. -/

/-- The sectors of a block. -/
def MountInfo.sectors (mi : MountInfo) : Nat := 2 ^ (mi.blocksSize + 1)

/-- A block has two or four sectors, or whole pages of them. -/
theorem sectors_cases (mi : MountInfo) : mi.sectors = 2 ∨ mi.sectors = 4 ∨ 8 ∣ mi.sectors := by
  unfold MountInfo.sectors
  rcases Nat.lt_or_ge mi.blocksSize 2 with hlt | hge
  · have hsmall : mi.blocksSize = 0 ∨ mi.blocksSize = 1 := by omega
    rcases hsmall with h | h <;> simp [h]
  · refine Or.inr (Or.inr ?_)
    rw [show (8 : Nat) = 2 ^ 3 from rfl]
    exact Nat.pow_dvd_pow 2 (by omega)

theorem pageSectors_pos (mi : MountInfo) : 0 < mi.sectors := Nat.pow_pos (by decide)

theorem blockSize_eq_sectors (mi : MountInfo) : mi.blockSize = 512 * mi.sectors := by
  rw [blockSize_eq]
  unfold MountInfo.sectors
  rw [show mi.blocksSize + 10 = 9 + (mi.blocksSize + 1) by omega, Nat.pow_add]

/-- The sectors of a page lie in one block when a block holds whole pages. -/
theorem page_in_block {sectors first n : Nat} (hsectors : 8 ∣ sectors) (hpos : 0 < sectors)
    (hpage : first % 8 = 0) (hn : n < 8) :
    (first + n) / sectors = first / sectors ∧ (first + n) % sectors = first % sectors + n := by
  have hmod : first % sectors % 8 = 0 := by
    rw [Nat.mod_mod_of_dvd first hsectors]
    exact hpage
  have hlt := Nat.mod_lt first hpos
  have hfits : first % sectors + n < sectors := by
    obtain ⟨m, hm⟩ := hsectors
    omega
  have hsum : first + n = first % sectors + n + sectors * (first / sectors) := by
    have hdiv := Nat.mod_add_div first sectors
    omega
  constructor
  · conv_lhs => rw [hsum]
    rw [Nat.add_mul_div_left _ _ hpos, Nat.div_eq_of_lt hfits, Nat.zero_add]
  · conv_lhs => rw [hsum]
    rw [Nat.add_mul_mod_self_left, Nat.mod_eq_of_lt hfits]

section Sectors

variable {mi : MountInfo} {first i j : Nat}

/-- Within a page a round that begins with the page or on a block boundary has its
sectors where one offset puts them all. -/
theorem sector_place (hpage : first % 8 = 0) (hi : i % mi.sectors = 0) (hij : i ≤ j) (hj : j < 8) :
    first % mi.sectors + (j - i)
      = (j - i) / mi.sectors * mi.sectors + (first + j) % mi.sectors := by
  rcases sectors_cases mi with h | h | hwhole
  · rw [h] at hi ⊢
    omega
  · rw [h] at hi ⊢
    omega
  · -- the block holds the page, so the round is the first
    have hle := Nat.le_of_dvd (pageSectors_pos mi) hwhole
    have hzero : i = 0 := (Nat.mod_eq_of_lt (by omega)).symm.trans hi
    rw [hzero, Nat.sub_zero, Nat.div_eq_of_lt (by omega), Nat.zero_mul, Nat.zero_add,
      (page_in_block hwhole (pageSectors_pos mi) hpage hj).2]

/-- Off a block boundary the sector before is in the same block. -/
theorem sector_before (hpage : first % 8 = 0) (hi : i % mi.sectors = 0) (hij : i < j) (hj : j < 8)
    (hoff : j % mi.sectors ≠ 0) :
    (first + (j - 1)) / mi.sectors = (first + j) / mi.sectors
      ∧ (j - 1 - i) / mi.sectors = (j - i) / mi.sectors := by
  rcases sectors_cases mi with h | h | hwhole
  · rw [h] at hi hoff ⊢
    omega
  · rw [h] at hi hoff ⊢
    omega
  · have hle := Nat.le_of_dvd (pageSectors_pos mi) hwhole
    have hblock := fun n hn => (page_in_block (n := n) hwhole (pageSectors_pos mi) hpage hn).1
    rw [hblock (j - 1) (by omega), hblock j hj]
    refine ⟨rfl, ?_⟩
    rw [Nat.div_eq_of_lt (show j - 1 - i < mi.sectors by omega),
      Nat.div_eq_of_lt (show j - i < mi.sectors by omega)]

/-- The block of a sector of a page. -/
theorem sectorBlock_eq (inode : Inode) (first i : Nat) :
    sectorBlock mi inode (512 * first) i
      = getInodeBlock mi inode ((first + i) / mi.sectors % 2 ^ 32) := by
  unfold sectorBlock
  rw [shift_eq_div, blockSize_eq_sectors, Nat.shiftLeft_eq,
    show 512 * first + i * 2 ^ 9 = 512 * (first + i) by omega,
    Nat.mul_div_mul_left _ _ (by decide)]

end Sectors

/-! ## §3. One request. -/

section Request

variable {mi : MountInfo} {inode : Inode} {first startI : Nat}

variable (mi inode first startI) in
/-- The scan goes on while the blocks are as predicted. -/
theorem scanChunk_run (chunkStartBlock left i : Nat)
    (hbefore : ∀ j, startI ≤ j → j < i → sectorBlock mi inode (512 * first) j
      = chunkStartBlock + (j - startI) / mi.sectors) :
    let e := scanChunk mi inode (512 * first) startI chunkStartBlock left i
    i ≤ e ∧ e ≤ i + left
      ∧ (∀ j, startI ≤ j → j < e → sectorBlock mi inode (512 * first) j
          = chunkStartBlock + (j - startI) / mi.sectors)
      ∧ (e = i + left ∨ sectorBlock mi inode (512 * first) e
          ≠ chunkStartBlock + (e - startI) / mi.sectors) := by
  induction left generalizing i with
  | zero => exact ⟨Nat.le_refl _, Nat.le_refl _, hbefore, Or.inl rfl⟩
  | succ left ih =>
      intro e
      have hshift : (i - startI) >>> (mi.blocksSize + 1) = (i - startI) / mi.sectors :=
        Nat.shiftRight_eq_div_pow _ _
      by_cases hnext : sectorBlock mi inode (512 * first) i
          = chunkStartBlock + (i - startI) / mi.sectors
      · have he : e = scanChunk mi inode (512 * first) startI chunkStartBlock left (i + 1) := by
          show (if _ = chunkStartBlock + (i - startI) >>> _ then _ else _) = _
          rw [hshift, if_pos hnext]
        obtain ⟨hlo, hhi, hall, hend⟩ := ih (i + 1) fun j hstart hj => by
          rcases Nat.lt_succ_iff_lt_or_eq.mp hj with hlt | rfl
          · exact hbefore j hstart hlt
          · exact hnext
        rw [he]
        refine ⟨by omega, by omega, hall, hend.imp_left fun h => ?_⟩
        omega
      · have he : e = i := by
          show (if _ = chunkStartBlock + (i - startI) >>> _ then _ else _) = _
          rw [hshift, if_neg hnext]
        rw [he]
        exact ⟨Nat.le_refl _, by omega, hbefore, Or.inr hnext⟩

variable (inode) in
/-- **The sectors of one request**: at least one, each in the block its distance from
the first predicts, and the next round begins behind the page or on a block boundary. -/
theorem scanChunk_spec (hpage : first % 8 = 0) (hstart : startI < 8)
    (hboundary : startI % mi.sectors = 0) :
    let block := sectorBlock mi inode (512 * first) startI
    let e := scanChunk mi inode (512 * first) startI block (sectorsToRead - startI) startI
    startI < e ∧ e ≤ 8
      ∧ (∀ j, startI ≤ j → j < e →
          sectorBlock mi inode (512 * first) j = block + (j - startI) / mi.sectors)
      ∧ (e = 8 ∨ e % mi.sectors = 0) := by
  intro block e
  have hsectors : sectorsToRead = 8 := rfl
  obtain ⟨hlo, hhi, hall, hend⟩ := scanChunk_run mi inode first startI block
    (sectorsToRead - startI) startI fun j hj hlt => absurd hlt (by omega)
  have hself : block = block + (startI - startI) / mi.sectors := by
    rw [Nat.sub_self, Nat.zero_div, Nat.add_zero]
  change e = startI + (sectorsToRead - startI) ∨ sectorBlock mi inode (512 * first) e
    ≠ block + (e - startI) / mi.sectors at hend
  have hmore : startI < e := by
    rcases hend with heq | hne
    · omega
    · refine Nat.lt_of_le_of_ne hlo fun heq => hne ?_
      rw [← heq]
      exact hself
  have hle : e ≤ 8 := by
    have hhi' : e ≤ startI + (sectorsToRead - startI) := hhi
    omega
  refine ⟨hmore, hle, hall, ?_⟩
  by_cases hlast : e = 8
  · exact Or.inl hlast
  · -- a mismatch inside a block would have been one a sector earlier
    refine Or.inr ?_
    by_contra hoff
    have hne : sectorBlock mi inode (512 * first) e ≠ block + (e - startI) / mi.sectors := by
      rcases hend with heq | hne
      · exact absurd (show e = 8 by omega) hlast
      · exact hne
    obtain ⟨hblock, hdistance⟩ := sector_before hpage hboundary hmore (by omega) hoff
    have hprev := hall (e - 1) (by omega) (by omega)
    rw [sectorBlock_eq, hblock, hdistance, ← sectorBlock_eq] at hprev
    exact hne hprev

end Request

/-! ## §4. The page. -/

section Pages

variable {mi : MountInfo} {inode : Inode} {device : Nat → Byte} {blockRead : BlockRead}
  {first : Nat}

variable (mi inode) in
/-- Byte `r` of sector `j` of a page, in its block. -/
theorem fileByte_sector (device : Nat → Byte) (first j : Nat) {r : Nat} (hr : r < 512) :
    fileByte mi inode device (512 * (first + j) + r)
      = device (getInodeBlock mi inode ((first + j) / mi.sectors) * mi.blockSize
          + (512 * ((first + j) % mi.sectors) + r)) := by
  have hdiv : (512 * (first + j) + r) / 512 = first + j := by omega
  have hmod : (512 * (first + j) + r) % 512 = r := by omega
  unfold fileByte
  rw [blockSize_eq_sectors, ← Nat.div_div_eq_div_mul, Nat.mod_mul, hdiv, hmod, Nat.add_comm r]

/-- The invariant of the loop: the sectors before `i` hold the bytes of the file as far
as it goes. -/
structure Holds (mi : MountInfo) (inode : Inode) (device : Nat → Byte) (first : Nat)
    (s : Filling) : Prop where
  boundary : s.i = 8 ∨ s.i % mi.sectors = 0
  bytes : ∀ k, k < 512 * s.i → 512 * first + k < inode.size.toNat →
    s.page k = fileByte mi inode device (512 * first + k)

/-- What a filled request leaves in a page. -/
theorem store_filled (page : Page) (start lba count : Nat) (k : Nat) :
    store page start (.ok ((List.range (count * 512)).map fun i => device (lba * 512 + i))) k
      = if start ≤ k ∧ k < start + count * 512 then device (lba * 512 + (k - start))
        else page k := by
  unfold store
  dsimp only
  rw [List.length_map, List.length_range]
  split
  · rename_i hin
    have hlt : k - start < count * 512 := by omega
    simp [List.getD_eq_getElem?_getD, hlt]
  · rfl

/-- **One request** puts the bytes of the file where they belong. -/
theorem readRound_spec (hok : DeviceOk mi inode device blockRead) (hpage : first % 8 = 0)
    {s : Filling} (h : Holds mi inode device first s) (hi : s.i < sectorsToRead) :
    ∃ s', readRound mi inode blockRead (512 * first) s = .inl s'
      ∧ Holds mi inode device first s' ∧ s.i < s'.i := by
  have hboundary : s.i % mi.sectors = 0 := h.boundary.resolve_left (Nat.ne_of_lt hi)
  obtain ⟨hmore, hle, hall, hnext⟩ := scanChunk_spec inode hpage hi hboundary
  have hround : readRound mi inode blockRead (512 * first) s = _ := if_pos hi
  refine ⟨_, hround, ⟨hnext, ?_⟩, hmore⟩
  intro k hk hsize
  rw [hok.fills]
  show store _ _ (.ok _) k = _
  rw [store_filled]
  have hstart : s.i <<< 9 = 512 * s.i := by rw [Nat.shiftLeft_eq, Nat.mul_comm]
  rw [hstart]
  generalize scanChunk mi inode (512 * first) s.i _ _ s.i = e at *
  change k < 512 * e at hk
  by_cases hold : k < 512 * s.i
  · -- an earlier request
    rw [if_neg (by omega)]
    exact h.bytes k hold hsize
  · -- sector `k / 512` of the page
    have hj : s.i ≤ k / 512 ∧ k / 512 < e := by omega
    have hplace := sector_place hpage hboundary hj.1 (by omega)
    have hblock := hall (k / 512) hj.1 hj.2
    have hbound := inode.size.isLt
    have hsmall : ∀ n, n ≤ k / 512 → (first + n) / mi.sectors < 2 ^ 32 := by
      intro n hn
      have hdiv := Nat.div_le_self (first + n) mi.sectors
      omega
    rw [sectorBlock_eq, sectorBlock_eq, Nat.mod_eq_of_lt (hsmall _ (Nat.le_refl _)),
      Nat.mod_eq_of_lt (hsmall _ hj.1)] at hblock
    have hlba := hok.lba ((first + s.i) / mi.sectors) (by
      have hmul := Nat.div_mul_le_self (first + s.i) mi.sectors
      rw [blockSize_eq_sectors, Nat.mul_left_comm]
      omega)
    have hoffset : (512 * first &&& (mi.blockSize - 1)) >>> 9 = first % mi.sectors := by
      rw [mask_eq_mod, blockSize_eq_sectors, Nat.mul_mod_mul_left, Nat.shiftRight_eq_div_pow]
      omega
    have hbyte := fileByte_sector mi inode device first (k / 512)
      (r := k % 512) (Nat.mod_lt _ (by decide))
    rw [if_pos (by omega), hoffset, sectorBlock_eq, Nat.mod_eq_of_lt (hsmall _ hj.1),
      show 512 * first + k = 512 * (first + k / 512) + k % 512 by omega, hbyte, hblock]
    refine congrArg device ?_
    -- both addresses lie `sector_place` apart from the block the request begins in
    rw [Nat.add_mul, hlba, Nat.add_mul, blockSize_eq_sectors,
      Nat.mul_left_comm ((k / 512 - s.i) / mi.sectors)]
    omega

/-- The loop begins with nothing read. -/
theorem holds_init (mi : MountInfo) (inode : Inode) (device : Nat → Byte) (first : Nat)
    (fresh : Page) : Holds mi inode device first ⟨0, fresh⟩ where
  boundary := Or.inr (Nat.zero_mod _)
  bytes := fun _ hk => absurd hk (Nat.not_lt_zero _)

/-- **The loop ends**, with the bytes of the file in the page. -/
theorem readRound_returns (hok : DeviceOk mi inode device blockRead) (hpage : first % 8 = 0)
    (fresh : Page) :
    ∃ page, Loop.Returns (readRound mi inode blockRead (512 * first)) ⟨0, fresh⟩ page
      ∧ ∀ k, k < 4096 → 512 * first + k < inode.size.toNat →
          page k = fileByte mi inode device (512 * first + k) := by
  refine Loop.returns_of_measure (Holds mi inode device first) (fun s => 8 - s.i) _ ?_
    (holds_init mi inode device first fresh)
  intro s h
  by_cases hi : s.i < sectorsToRead
  · obtain ⟨s', hround, hholds, hmore⟩ := readRound_spec hok hpage h hi
    have hlt : s.i < 8 := hi
    exact Or.inl ⟨s', hround, hholds, by omega⟩
  · refine Or.inr ⟨s.page, if_neg hi, fun k hk => h.bytes k ?_⟩
    have hsectors : sectorsToRead = 8 := rfl
    omega

end Pages

/-- **A page of a mapped file** that is not in memory yet: the call ends, the page holds
the bytes of the file up to its end, and a shared mapping finds it again. -/
theorem resolve_mapping_reads_file (mi : MountInfo) (inode : Inode) (device : Nat → Byte)
    (blockRead : BlockRead) (hok : DeviceOk mi inode device blockRead)
    (sharedPages : Nat → Option Page) (mapping : FilePage) (addr : Nat) (fresh : Page)
    (haligned : fileOffset mapping addr % 4096 = 0)
    (hmissing : sharedPages (fileOffset mapping addr) = none) :
    ∃ page, (∃ fuel, resolveMapping mi inode blockRead sharedPages mapping addr fresh fuel
        = some (page, if mapping.shared then
            Function.update sharedPages (fileOffset mapping addr) (some page) else sharedPages))
      ∧ ∀ k, k < min 4096 (inode.size.toNat - fileOffset mapping addr) →
          page k = fileByte mi inode device (fileOffset mapping addr + k) := by
  have hfirst : fileOffset mapping addr = 512 * (fileOffset mapping addr / 512) := by omega
  obtain ⟨page, ⟨fuel, hfuel⟩, hbytes⟩ := readRound_returns hok
    (show fileOffset mapping addr / 512 % 8 = 0 by omega) fresh
  rw [← hfirst] at hfuel hbytes
  refine ⟨page, ⟨fuel, ?_⟩, fun k hk => hbytes k (by omega) (by omega)⟩
  unfold resolveMapping
  simp only [hmissing, hfuel, Option.map_some]

/-- The page of a fault at `0x500123` in a mapping of the small file from its beginning. -/
theorem resolve_mapping_reads_file_small :
    ∃ page, (∃ fuel, resolveMapping smallMount smallInode smallRead (fun _ => none)
          ⟨0x500000, 0, true⟩ 0x500123 (fun _ => 0) fuel
        = some (page, if true then
            Function.update (fun _ => none) (fileOffset ⟨0x500000, 0, true⟩ 0x500123) (some page)
            else fun _ => none))
      ∧ ∀ k, k < min 4096 (smallInode.size.toNat - fileOffset ⟨0x500000, 0, true⟩ 0x500123) →
          page k = fileByte smallMount smallInode smallDevice
            (fileOffset ⟨0x500000, 0, true⟩ 0x500123 + k) :=
  resolve_mapping_reads_file smallMount smallInode smallDevice smallRead smallDevice_ok
    (fun _ => none) ⟨0x500000, 0, true⟩ 0x500123 (fun _ => 0) (by decide) rfl

end MierOS.Ext2
