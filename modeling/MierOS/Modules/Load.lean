/-
  MierOS.Modules.Load
  **LOADING A MODULE INTO KERNEL PAGES**: `Module::load` of `module.cpp`, what it
  asks of the kernel pager.

  The reservation is as long as the segments reach from the lowest to the highest
  address, but a segment is mapped at the base plus its ABSOLUTE address.  So it fits
  exactly when the lowest segment starts in page 0 of the image.

  Addresses are 64-bit words.  The copy into the mapped pages writes no page
  structure and is left out, like the sections, which are kept for later.

  Main result: `load_stays_iff`.
-/
import Mathlib.Data.List.Nodup
import MierOS.Lib.LowBits
import MierOS.Lib.WordMemory
import MierOS.Memory.TableFrames
import MierOS.Modules.ModuleManager

namespace MierOS.Modules.Loading

open Lib Memory.Virtual Memory.Virtual.Paging

/-! ## §1. The code. -/

/-- What `load` asks of an `Elf64_Phdr`, but for where the file holds the bytes. -/
structure Phdr where
  type : Nat
  flags : Nat
  vaddr : Word
  memSize : Word
  deriving Repr, DecidableEq

/-- `PT_LOAD`. -/
def ptLoad : Nat := 1

/-- The number of pages that hold `size` bytes, as `load` rounds. -/
def pageSize (size : Word) : Nat := ((size >>> 12) + if size &&& 0xFFF = 0 then 0 else 1).toNat

/-- `phdrFirst`. -/
def Phdr.first (ph : Phdr) : Word := ph.vaddr &&& ~~~(0xFFF : Word)

/-- `phdrLast`. -/
def Phdr.last (ph : Phdr) : Word :=
  let last := ph.vaddr + ph.memSize
  if last &&& 0xFFF ≠ 0 then (last ||| 0xFFF) + 1 else last

/-- One round of the loop that measures: `firstAddr` and `lastAddr`. -/
def measureRound (addrs : Word × Word) (ph : Phdr) : Word × Word :=
  if ph.type ≠ ptLoad then addrs
  else
    (if addrs.1 > ph.first then ph.first else addrs.1,
      if addrs.2 < ph.last then ph.last else addrs.2)

/-- `firstAddr` and `lastAddr` after the loop. -/
def measure (phdrs : List Phdr) : Word × Word := phdrs.foldl measureRound (~~~(0 : Word), 0)

/-- `modPageSize`. -/
def modPageSize (phdrs : List Phdr) : Nat := pageSize ((measure phdrs).2 - (measure phdrs).1)

/-- `pageMemSize`. -/
def Phdr.pageMemSize (ph : Phdr) : Nat := pageSize (ph.memSize + (ph.vaddr &&& 0xFFF))

/-- The address of page `j` of a segment. -/
def Phdr.pageAddr (base : Word) (ph : Phdr) (j : Nat) : Word :=
  base + (ph.vaddr &&& ~~~(0xFFF : Word)) + (BitVec.ofNat 64 j <<< 12)

/-- `pager.map(palloc(1), addr, 1, PageFlags(true, true))`. -/
def mapPage (s : Paging) (addr : Word) : Option Paging := do
  let (frame, s) ← s.palloc
  s.map 0 (frame <<< 12) addr.toNat 1 (.of true true false false false false)

/-- The pages of one program header. -/
def loadSegment (base : Word) (s : Paging) (ph : Phdr) : Option Paging :=
  if ph.type = ptLoad then
    (List.range ph.pageMemSize).foldlM (fun s j => mapPage s (ph.pageAddr base j)) s
  else some s

/-- `FlagRegion`. -/
structure FlagRegion where
  start : Word
  length : Nat
  flags : PageFlags
  deriving Repr, DecidableEq

/-- What is pushed to `flagRegions` for a `PT_LOAD` header. -/
def Phdr.flagRegion (base : Word) (ph : Phdr) : FlagRegion where
  start := base + (ph.vaddr &&& ~~~(0xFFF : Word))
  length := ph.pageMemSize
  flags := .of true (ph.flags &&& 2 ≠ 0) false (ph.flags &&& 1 ≠ 0) true false

/-- The headers that are loaded. -/
def loadable (phdrs : List Phdr) : List Phdr := phdrs.filter fun ph => ph.type = ptLoad

/-- `flagRegions`. -/
def flagRegions (base : Word) (phdrs : List Phdr) : List FlagRegion :=
  (loadable phdrs).map fun ph => ph.flagRegion base

/-- A module image and its program headers. -/
structure ModuleFile where
  image : Image
  phdrs : List Phdr
  deriving Repr, DecidableEq

section Code

variable (hashMajor : Nat → Nat) (hashName : Name → Nat) (kernelSymbol : Name → Bool)

/-- `Module::load(file)`.  Header, symbols and relocation are those of
`ModuleManager.load`; whether there is room is up to the pager. -/
def load (mm : ModuleManager) (major : Nat) (s : Paging) (file : ModuleFile) :
    Option (Except LoadError Module × Paging) :=
  if ¬ file.image.ident then some (.error (.errno .ENOEXEC), s)
  else do
    let s := s.lock 0
    let (base, s) ← s.getFreeRange 0 kernelStart (modPageSize file.phdrs)
    if base = 0 then return (.error (.errno .ENOMEM), s.unlock 0)
    else
      let s ← file.phdrs.foldlM (loadSegment (.ofNat 64 base)) s
      let s := s.unlock 0
      match mm.load hashMajor hashName kernelSymbol major { file.image with room := true } with
      | .error e => return (.error e, s)
      | .ok mod =>
          let s := s.lock 0
          let s ← (flagRegions (.ofNat 64 base) file.phdrs).foldlM
            (fun s reg => s.flags 0 reg.start.toNat reg.length reg.flags) s
          return (.ok mod, s.unlock 0)

/-- `load_module(modImage, args)`; the caller gets the `major` of the module. -/
def loadModule (mm : ModuleManager) (s : Paging) (file : ModuleFile) :
    Option (Except LoadError Module × ModuleManager × Paging) := do
  let major := mm.nextMajor
  let mm := { mm with nextMajor := (mm.nextMajor + 1) % 2 ^ 16 }
  let (status, s) ← load hashMajor hashName kernelSymbol mm major s file
  match status with
  | .error e => return (.error e, mm, s)
  | .ok mod =>
      match mm.init hashMajor mod file.image with
      | .error e => return (.error e, mm, s)
      | .ok () =>
          return (.ok mod, { mm with
            moduleCache := (mm.moduleCache.insert hashName mod.name mod.major).2
            moduleMap := (mm.moduleMap.insert hashMajor mod.major mod).2 }, s)

end Code

/-! ## §2. Pages and page numbers. -/

/-- The pages of one header, in the order in which they are mapped. -/
def Phdr.pages (base : Word) (ph : Phdr) : List Word :=
  (List.range ph.pageMemSize).map (ph.pageAddr base)

/-- **The pages that `load` maps**, in order. -/
def mappedPages (base : Word) (phdrs : List Phdr) : List Word :=
  (loadable phdrs).flatMap (Phdr.pages base)

theorem loadable_cons {ph : Phdr} (hload : ph.type = ptLoad) (phdrs : List Phdr) :
    loadable (ph :: phdrs) = ph :: loadable phdrs :=
  List.filter_cons_of_pos (decide_eq_true hload)

theorem loadable_cons_of_ne {ph : Phdr} (hload : ph.type ≠ ptLoad) (phdrs : List Phdr) :
    loadable (ph :: phdrs) = loadable phdrs :=
  List.filter_cons_of_neg (by simpa using hload)

/-- The loops of `load` are one loop over the pages. -/
theorem loadSegments_eq (base : Word) (phdrs : List Phdr) (s : Paging) :
    phdrs.foldlM (loadSegment base) s = (mappedPages base phdrs).foldlM mapPage s := by
  induction phdrs generalizing s with
  | nil => rfl
  | cons ph phdrs ih =>
      rw [List.foldlM_cons]
      by_cases hload : ph.type = ptLoad
      · have hseg : loadSegment base s ph = (ph.pages base).foldlM mapPage s := by
          rw [Phdr.pages, List.foldlM_map]
          exact if_pos hload
        have hpages : mappedPages base (ph :: phdrs) = ph.pages base ++ mappedPages base phdrs := by
          unfold mappedPages
          rw [loadable_cons hload, List.flatMap_cons]
        rw [hseg, hpages, List.foldlM_append]
        exact congrArg _ (funext ih)
      · have hseg : loadSegment base s ph = some s := if_neg hload
        have hpages : mappedPages base (ph :: phdrs) = mappedPages base phdrs := by
          unfold mappedPages
          rw [loadable_cons_of_ne hload]
        rw [hseg, hpages]
        exact ih s

/-- The page of the image that a header starts in. -/
def Phdr.firstPage (ph : Phdr) : Nat := ph.vaddr.toNat / 0x1000

section Numbers

theorem toNat_low (x : Word) : (x &&& 0xFFF).toNat = x.toNat % 0x1000 :=
  LowBits.toNat_and_mask (show 12 ≤ 64 by decide) x

theorem toNat_high (x : Word) : (x &&& ~~~(0xFFF : Word)).toNat = x.toNat / 0x1000 * 0x1000 :=
  LowBits.toNat_and_not_mask 12 x

theorem toNat_filled (x : Word) : (x ||| 0xFFF).toNat = x.toNat / 0x1000 * 0x1000 + 0xFFF :=
  LowBits.toNat_or_mask (show 12 ≤ 64 by decide) x

theorem pageSize_eq (size : Word) : pageSize size = (size.toNat + 0xFFF) / 0x1000 :=
  LowBits.toNat_blocks (show 0 < 12 by decide) (by decide) size

theorem Phdr.firstPage_lt (ph : Phdr) : ph.firstPage < 2 ^ 52 := by
  have := ph.vaddr.isLt
  unfold Phdr.firstPage
  omega

theorem Phdr.first_toNat (ph : Phdr) : ph.first.toNat = ph.firstPage * 0x1000 := toNat_high _

theorem Phdr.pageMemSize_eq (ph : Phdr) : ph.pageMemSize
    = ((ph.memSize.toNat + ph.vaddr.toNat % 0x1000) % 2 ^ 64 + 0xFFF) / 0x1000 := by
  unfold Phdr.pageMemSize
  rw [pageSize_eq, BitVec.toNat_add, toNat_low]

/-- Both ways of rounding agree, up to a carry out of the address. -/
theorem Phdr.last_toNat (ph : Phdr) :
    ph.last.toNat = (ph.firstPage + ph.pageMemSize) % 2 ^ 52 * 0x1000 := by
  have hv := ph.vaddr.isLt
  have hm := ph.memSize.isLt
  have hlow : (ph.vaddr + ph.memSize) &&& 0xFFF = 0
      ↔ (ph.vaddr + ph.memSize).toNat % 0x1000 = 0 :=
    LowBits.and_mask_eq_zero_iff (show 12 ≤ 64 by decide) _
  rw [ph.pageMemSize_eq]
  unfold Phdr.last Phdr.firstPage
  dsimp only
  split
  · rename_i h
    rw [Ne, hlow, BitVec.toNat_add] at h
    rw [BitVec.toNat_add, toNat_filled, BitVec.toNat_add, show (1 : Word).toNat = 1 from rfl]
    omega
  · rename_i h
    rw [Ne, not_not, hlow, BitVec.toNat_add] at h
    rw [BitVec.toNat_add]
    omega

theorem Phdr.pageAddr_toNat (ph : Phdr) (b j : Nat) :
    (ph.pageAddr (.ofNat 64 (b * 0x1000)) j).toNat
      = (b + ph.firstPage + j) % 2 ^ 52 * 0x1000 := by
  unfold Phdr.pageAddr
  rw [BitVec.toNat_add, BitVec.toNat_add, toNat_high, BitVec.toNat_shiftLeft, BitVec.toNat_ofNat,
    BitVec.toNat_ofNat, Nat.shiftLeft_eq]
  unfold Phdr.firstPage
  omega

end Numbers

/-! ## §3. The measure. -/

/-- The page behind the last one of a header, as `phdrLast` has it. -/
def Phdr.endPage (ph : Phdr) : Nat := (ph.firstPage + ph.pageMemSize) % 2 ^ 52

/-- One round: the first address is the lower one, and the last address the higher one. -/
theorem measureRound_first {ph : Phdr} (hload : ph.type = ptLoad) (addrs : Word × Word) :
    (measureRound addrs ph).1.toNat ≤ addrs.1.toNat
      ∧ (measureRound addrs ph).1.toNat ≤ ph.first.toNat
      ∧ ((measureRound addrs ph).1 = addrs.1 ∨ (measureRound addrs ph).1 = ph.first) := by
  unfold measureRound
  rw [if_neg (not_not.mpr hload)]
  dsimp only
  split
  · rename_i h
    rw [gt_iff_lt, BitVec.lt_def] at h
    exact ⟨Nat.le_of_lt h, Nat.le_refl _, .inr rfl⟩
  · rename_i h
    rw [gt_iff_lt, BitVec.lt_def, Nat.not_lt] at h
    exact ⟨Nat.le_refl _, h, .inl rfl⟩

theorem measureRound_last {ph : Phdr} (hload : ph.type = ptLoad) (addrs : Word × Word) :
    addrs.2.toNat ≤ (measureRound addrs ph).2.toNat
      ∧ ph.last.toNat ≤ (measureRound addrs ph).2.toNat
      ∧ ((measureRound addrs ph).2 = addrs.2 ∨ (measureRound addrs ph).2 = ph.last) := by
  unfold measureRound
  rw [if_neg (not_not.mpr hload)]
  dsimp only
  split
  · rename_i h
    rw [BitVec.lt_def] at h
    exact ⟨Nat.le_of_lt h, Nat.le_refl _, .inr rfl⟩
  · rename_i h
    rw [BitVec.lt_def, Nat.not_lt] at h
    exact ⟨Nat.le_refl _, h, .inl rfl⟩

/-- What `measureRound` does over a list: the addresses come closer to no header, and
are those of a header or the ones it started with. -/
theorem foldl_measureRound (phdrs : List Phdr) (addrs : Word × Word) :
    (phdrs.foldl measureRound addrs).1.toNat ≤ addrs.1.toNat
      ∧ addrs.2.toNat ≤ (phdrs.foldl measureRound addrs).2.toNat
      ∧ (∀ ph ∈ loadable phdrs, (phdrs.foldl measureRound addrs).1.toNat ≤ ph.first.toNat
          ∧ ph.last.toNat ≤ (phdrs.foldl measureRound addrs).2.toNat)
      ∧ ((phdrs.foldl measureRound addrs).1 = addrs.1
          ∨ ∃ ph ∈ loadable phdrs, (phdrs.foldl measureRound addrs).1 = ph.first)
      ∧ ((phdrs.foldl measureRound addrs).2 = addrs.2
          ∨ ∃ ph ∈ loadable phdrs, (phdrs.foldl measureRound addrs).2 = ph.last) := by
  induction phdrs generalizing addrs with
  | nil =>
      exact ⟨Nat.le_refl _, Nat.le_refl _, fun _ h => absurd h List.not_mem_nil, .inl rfl, .inl rfl⟩
  | cons ph phdrs ih =>
      -- the others start with the addresses that this header leaves
      obtain ⟨hfirst, hlast, hall, hfrom, hto⟩ := ih (measureRound addrs ph)
      rw [List.foldl_cons]
      by_cases hload : ph.type = ptLoad
      · obtain ⟨hmin, hminph, hmineq⟩ := measureRound_first hload addrs
        obtain ⟨hmax, hmaxph, hmaxeq⟩ := measureRound_last hload addrs
        rw [loadable_cons hload]
        refine ⟨Nat.le_trans hfirst hmin, Nat.le_trans hmax hlast, ?_, ?_, ?_⟩
        · exact List.forall_mem_cons.mpr
            ⟨⟨Nat.le_trans hfirst hminph, Nat.le_trans hmaxph hlast⟩, hall⟩
        · rcases hfrom with heq | ⟨ph', hmem, heq⟩
          · rcases hmineq with h | h
            · exact .inl (heq.trans h)
            · exact .inr ⟨ph, List.mem_cons_self, heq.trans h⟩
          · exact .inr ⟨ph', List.mem_cons_of_mem _ hmem, heq⟩
        · rcases hto with heq | ⟨ph', hmem, heq⟩
          · rcases hmaxeq with h | h
            · exact .inl (heq.trans h)
            · exact .inr ⟨ph, List.mem_cons_self, heq.trans h⟩
          · exact .inr ⟨ph', List.mem_cons_of_mem _ hmem, heq⟩
      · have hround : measureRound addrs ph = addrs := if_pos hload
        rw [hround] at hfirst hlast hall hfrom hto ⊢
        rw [loadable_cons_of_ne hload]
        exact ⟨hfirst, hlast, hall, hfrom, hto⟩

/-- **The reservation** reaches from the lowest first page to the highest end. -/
theorem modPageSize_eq {phdrs : List Phdr} {ph : Phdr} (hmem : ph ∈ loadable phdrs) :
    ∃ low ∈ loadable phdrs, ∃ high ∈ loadable phdrs,
      modPageSize phdrs = (high.endPage + 2 ^ 52 - low.firstPage) % 2 ^ 52
        ∧ ∀ ph ∈ loadable phdrs, low.firstPage ≤ ph.firstPage ∧ ph.endPage ≤ high.endPage := by
  obtain ⟨-, -, hall, hfrom, hto⟩ := foldl_measureRound phdrs (~~~(0 : Word), 0)
  have hends : ∀ ph : Phdr, ph.last.toNat = ph.endPage * 0x1000 := fun ph => ph.last_toNat
  have hlow : ∃ low ∈ loadable phdrs, (measure phdrs).1 = low.first := by
    refine hfrom.resolve_left fun heq => ?_
    -- no header starts in the last byte
    have hle := (hall ph hmem).1
    rw [heq, ph.first_toNat, show (~~~(0 : Word)).toNat = 2 ^ 64 - 1 from rfl] at hle
    have hlt := ph.firstPage_lt
    omega
  -- an end at 0 is that of any header, as none is higher
  have hhigh : ∃ high ∈ loadable phdrs, (measure phdrs).2 = high.last := by
    rcases hto with heq | hto
    · have hle : ph.last.toNat ≤ (measure phdrs).2.toNat := (hall ph hmem).2
      have hzero : (measure phdrs).2 = 0 := heq
      refine ⟨ph, hmem, ?_⟩
      rw [hzero] at hle ⊢
      rw [← BitVec.toNat_inj]
      exact (Nat.le_zero.mp hle).symm
    · exact hto
  obtain ⟨low, hlowmem, hlow⟩ := hlow
  obtain ⟨high, hhighmem, hhigh⟩ := hhigh
  have hmeasure : ∀ ph ∈ loadable phdrs, (measure phdrs).1.toNat ≤ ph.first.toNat
      ∧ ph.last.toNat ≤ (measure phdrs).2.toNat := hall
  rw [hlow, hhigh, low.first_toNat, hends high] at hmeasure
  refine ⟨low, hlowmem, high, hhighmem, ?_, fun ph hph => ?_⟩
  · have hfirst := low.firstPage_lt
    have hend : high.endPage < 2 ^ 52 := Nat.mod_lt _ (by decide)
    unfold modPageSize
    rw [hlow, hhigh, pageSize_eq, BitVec.toNat_sub, low.first_toNat, hends high]
    omega
  · have hboth := hmeasure ph hph
    rw [ph.first_toNat, hends ph] at hboth
    omega

/-- The reservation of an image without a loadable header is one page. -/
theorem modPageSize_lt (phdrs : List Phdr) : modPageSize phdrs < 2 ^ 52 := by
  cases hload : loadable phdrs with
  | nil =>
      obtain ⟨-, -, -, hfrom, hto⟩ := foldl_measureRound phdrs (~~~(0 : Word), 0)
      rw [hload] at hfrom hto
      have hfirst : (measure phdrs).1 = ~~~(0 : Word) := hfrom.resolve_right (by simp)
      have hlast : (measure phdrs).2 = 0 := hto.resolve_right (by simp)
      unfold modPageSize
      rw [hfirst, hlast]
      decide
  | cons ph _ =>
      have hmem : ph ∈ loadable phdrs := by
        rw [hload]
        exact List.mem_cons_self
      obtain ⟨low, -, high, -, heq, -⟩ := modPageSize_eq hmem
      rw [heq]
      exact Nat.mod_lt _ (by decide)

/-! ## §4. What is mapped where. -/

/-- **What the reservation is for**: the mapped pages lie in the `count` pages from
`base` on, and none is mapped twice. -/
structure StaysInside (base count : Nat) (pages : List Word) : Prop where
  inside : ∀ addr ∈ pages, base ≤ addr.toNat ∧ addr.toNat + 0x1000 ≤ base + count * 0x1000
  once : (pages.map fun addr => pageOf addr.toNat).Nodup

/-- The page numbers of a header, in the image. -/
def Phdr.pageNumbers (ph : Phdr) : List Nat := List.range' ph.firstPage ph.pageMemSize

/-- **The program headers fit**: no segment runs over the end of the address space,
each ends as far above page 0 as the image reaches from its lowest page on, and no
page belongs to two of them. -/
structure FitsReservation (phdrs : List Phdr) : Prop where
  ends : ∀ ph ∈ loadable phdrs, 0 < ph.pageMemSize → ph.firstPage + ph.pageMemSize < 2 ^ 52
  reaches : ∀ ph ∈ loadable phdrs, 0 < ph.pageMemSize →
    ∃ low ∈ loadable phdrs, ∃ high ∈ loadable phdrs,
      low.firstPage + (ph.firstPage + ph.pageMemSize) ≤ high.firstPage + high.pageMemSize
  apart : (loadable phdrs).Pairwise fun ph ph' => ph.pageNumbers.Disjoint ph'.pageNumbers

section Fits

variable {phdrs : List Phdr} {b count : Nat}

/-- A header ends in the reservation. -/
def Phdr.Within (ph : Phdr) (count : Nat) : Prop :=
  ph.pageMemSize = 0 ∨ ph.firstPage + ph.pageMemSize ≤ count

/-- **Ending in the reservation is a matter of the headers**: the reservation is as
long as the image, not as high. -/
theorem within_iff (phdrs : List Phdr) :
    (∀ ph ∈ loadable phdrs, ph.Within (modPageSize phdrs))
      ↔ (∀ ph ∈ loadable phdrs, 0 < ph.pageMemSize → ph.firstPage + ph.pageMemSize < 2 ^ 52)
        ∧ ∀ ph ∈ loadable phdrs, 0 < ph.pageMemSize →
          ∃ low ∈ loadable phdrs, ∃ high ∈ loadable phdrs,
            low.firstPage + (ph.firstPage + ph.pageMemSize)
              ≤ high.firstPage + high.pageMemSize := by
  constructor
  · intro hall
    have hends : ∀ ph ∈ loadable phdrs, 0 < ph.pageMemSize →
        ph.firstPage + ph.pageMemSize ≤ modPageSize phdrs :=
      fun ph hph hpos => (hall ph hph).resolve_left (Nat.pos_iff_ne_zero.mp hpos)
    -- an end in the reservation is not carried over
    have hlt := modPageSize_lt phdrs
    refine ⟨fun ph hph hpos => Nat.lt_of_le_of_lt (hends ph hph hpos) hlt, ?_⟩
    intro ph hph hpos
    obtain ⟨low, hlow, high, hhigh, heq, hbetween⟩ := modPageSize_eq hph
    have hend := hends ph hph hpos
    obtain ⟨hfirst, hlast⟩ := hbetween ph hph
    refine ⟨low, hlow, high, hhigh, ?_⟩
    unfold Phdr.endPage at heq hlast
    omega
  · intro ⟨hends, hreaches⟩ ph hph
    rcases Nat.eq_zero_or_pos ph.pageMemSize with hzero | hpos
    · exact .inl hzero
    · right
      obtain ⟨low, hlow, high, hhigh, heq, hbetween⟩ := modPageSize_eq hph
      obtain ⟨low', hlow', high', hhigh', hreach⟩ := hreaches ph hph hpos
      have hend := hends ph hph hpos
      obtain ⟨hfirst, hlast⟩ := hbetween ph hph
      have hfirst' := (hbetween low' hlow').1
      have hlast' := (hbetween high' hhigh').2
      -- an end that counts is not carried over
      have hcarry : high'.firstPage + high'.pageMemSize < 2 ^ 52 := by
        rcases Nat.eq_zero_or_pos high'.pageMemSize with h0 | h0
        · rw [h0]
          exact high'.firstPage_lt
        · exact hends high' hhigh' h0
      unfold Phdr.endPage at heq hlast hlast'
      rw [Nat.mod_eq_of_lt hcarry] at hlast'
      rw [Nat.mod_eq_of_lt hend] at hlast
      have hhighlt : (high.firstPage + high.pageMemSize) % 2 ^ 52 < 2 ^ 52 :=
        Nat.mod_lt _ (by decide)
      omega

/-- One page of a header, placed at the base. -/
theorem pageAddr_inside_iff (ph : Phdr) (hpos : 0 < b) (hfits : b + count ≤ 2 ^ 52) :
    (∀ j, j < ph.pageMemSize → b * 0x1000 ≤ (b + ph.firstPage + j) % 2 ^ 52 * 0x1000
        ∧ (b + ph.firstPage + j) % 2 ^ 52 * 0x1000 + 0x1000 ≤ b * 0x1000 + count * 0x1000)
      ↔ ph.Within count := by
  have hfirst := ph.firstPage_lt
  unfold Phdr.Within
  constructor
  · intro hall
    by_contra hnot
    rw [not_or, Nat.not_le] at hnot
    -- the first page that is too high, or the first of all
    by_cases hlow : ph.firstPage < count
    · have hpage := hall (count - ph.firstPage) (by omega)
      omega
    · have hpage := hall 0 (Nat.pos_of_ne_zero hnot.1)
      omega
  · rintro (hzero | hend) j hj
    · omega
    · rw [Nat.mod_eq_of_lt (by omega)]
      omega

theorem mem_pages_iff {ph : Phdr} {addr : Word} :
    addr ∈ ph.pages (.ofNat 64 (b * 0x1000))
      ↔ ∃ j, j < ph.pageMemSize ∧ ph.pageAddr (.ofNat 64 (b * 0x1000)) j = addr := by
  unfold Phdr.pages
  simp only [List.mem_map, List.mem_range]

/-- **The mapped pages lie in the reservation** exactly when every header ends in it. -/
theorem inside_iff (phdrs : List Phdr) (hpos : 0 < b) (hfits : b + count ≤ 2 ^ 52) :
    (∀ addr ∈ mappedPages (.ofNat 64 (b * 0x1000)) phdrs,
        b * 0x1000 ≤ addr.toNat ∧ addr.toNat + 0x1000 ≤ b * 0x1000 + count * 0x1000)
      ↔ ∀ ph ∈ loadable phdrs, ph.Within count := by
  unfold mappedPages
  simp only [List.mem_flatMap]
  constructor
  · intro hall ph hph
    refine (pageAddr_inside_iff ph hpos hfits).mp fun j hj => ?_
    rw [← ph.pageAddr_toNat b j]
    exact hall _ ⟨ph, hph, mem_pages_iff.mpr ⟨j, hj, rfl⟩⟩
  · intro hall addr ⟨ph, hph, hmem⟩
    obtain ⟨j, hj, rfl⟩ := mem_pages_iff.mp hmem
    rw [ph.pageAddr_toNat b j]
    exact (pageAddr_inside_iff ph hpos hfits).mpr (hall ph hph) j hj

/-- In a reservation above `KERNEL_START` the page tables tell all pages apart. -/
theorem pageOf_pages {ph : Phdr} (hkernel : 2 ^ 52 - 2 ^ 19 ≤ b) (hfits : b + count ≤ 2 ^ 52)
    (hwithin : ph.Within count) :
    (ph.pages (.ofNat 64 (b * 0x1000))).map (fun addr => pageOf addr.toNat)
      = ph.pageNumbers.map fun page => b - (2 ^ 52 - 2 ^ 36) + page := by
  unfold Phdr.pages Phdr.pageNumbers
  rw [List.map_map, List.range'_eq_map_range, List.map_map]
  refine List.map_congr_left fun j hj => ?_
  rw [List.mem_range] at hj
  have hend : ph.firstPage + ph.pageMemSize ≤ count := hwithin.resolve_left (by omega)
  simp only [Function.comp_apply]
  rw [pageOf_eq, ph.pageAddr_toNat b j]
  omega

/-- **Nothing is mapped twice** exactly when no two headers have a page in common. -/
theorem once_iff (hkernel : 2 ^ 52 - 2 ^ 19 ≤ b) (hfits : b + count ≤ 2 ^ 52)
    (hwithin : ∀ ph ∈ loadable phdrs, ph.Within count) :
    ((mappedPages (.ofNat 64 (b * 0x1000)) phdrs).map fun addr => pageOf addr.toNat).Nodup
      ↔ (loadable phdrs).Pairwise fun ph ph' => ph.pageNumbers.Disjoint ph'.pageNumbers := by
  have hnumbers : (mappedPages (.ofNat 64 (b * 0x1000)) phdrs).map (fun addr => pageOf addr.toNat)
      = ((loadable phdrs).flatMap Phdr.pageNumbers).map
          fun page => b - (2 ^ 52 - 2 ^ 36) + page := by
    unfold mappedPages
    rw [List.map_flatMap, List.map_flatMap]
    exact List.flatMap_congr fun ph hph => pageOf_pages hkernel hfits (hwithin ph hph)
  -- the base moves all page numbers by the same
  have hshift : Function.Injective fun page : Nat => b - (2 ^ 52 - 2 ^ 36) + page :=
    fun _ _ => Nat.add_left_cancel
  rw [hnumbers, List.nodup_map_iff hshift, List.nodup_flatMap]
  exact ⟨And.right, fun h => ⟨fun ph _ => List.nodup_range', h⟩⟩

end Fits

/-! ## §5. Loading stays in its reservation. -/

section Stays

variable {s₀ s t : Paging} {hist : List PagingEvent}

/-- **What `load` reserves**: whole pages between `KERNEL_START` and the top. -/
theorem reserve_spec {n base : Nat} (hboot : Booted s₀) (hrun : Run PagingStep s₀ hist s)
    (h52 : n < 2 ^ 52) (hfind : (s.lock 0).getFreeRange 0 kernelStart n = some (base, t))
    (hbase : base ≠ 0) :
    ∃ b, base = b * 0x1000 ∧ 2 ^ 52 - 2 ^ 19 ≤ b ∧ b + n ≤ 2 ^ 52 := by
  have hg := reachable_good hboot hrun
  obtain ⟨hcount, htop⟩ := reachable_topPresent hboot hrun
  have hp : Locked (s.lock 0) 0 := ⟨hcount, Nat.succ_pos _⟩
  have htopl := lock_topPresent hg hcount (htop 0 hcount)
  obtain ⟨-, hrange⟩ := getFreeRange_looked (lock_quiet hg 0).good hp htopl (by decide) (by decide)
    (by decide) h52 hfind
  obtain ⟨hle, hal, hend⟩ := hrange hbase
  unfold kernelStart at hle
  exact ⟨base / 0x1000, by omega, by omega, by omega⟩

/-- **Module loading stays in its reservation** (`Module::load`) exactly when the
program headers fit: for every image and every state the pagers can reach, the pages
that the loops of `load` map lie in the range that `getFreeRange` reserved, each of
them mapped once, if and only if the lowest segment leaves the others room and no two
segments share a page. -/
theorem load_stays_iff {phdrs : List Phdr} {base : Nat} (hboot : Booted s₀)
    (hrun : Run PagingStep s₀ hist s)
    (hfind : (s.lock 0).getFreeRange 0 kernelStart (modPageSize phdrs) = some (base, t))
    (hbase : base ≠ 0) :
    (∀ u, phdrs.foldlM (loadSegment (.ofNat 64 base)) u
        = (mappedPages (.ofNat 64 base) phdrs).foldlM mapPage u)
      ∧ (StaysInside base (modPageSize phdrs) (mappedPages (.ofNat 64 base) phdrs)
        ↔ FitsReservation phdrs) := by
  refine ⟨loadSegments_eq _ phdrs, ?_⟩
  obtain ⟨b, rfl, hkernel, hfits⟩ :=
    reserve_spec hboot hrun (modPageSize_lt phdrs) hfind hbase
  have hinside := inside_iff phdrs (show 0 < b by omega) hfits
  constructor
  · intro ⟨hin, honce⟩
    have hwithin := hinside.mp hin
    obtain ⟨hends, hreaches⟩ := (within_iff phdrs).mp hwithin
    exact ⟨hends, hreaches, (once_iff hkernel hfits hwithin).mp honce⟩
  · intro ⟨hends, hreaches, hapart⟩
    have hwithin := (within_iff phdrs).mpr ⟨hends, hreaches⟩
    exact ⟨hinside.mpr hwithin, (once_iff hkernel hfits hwithin).mpr hapart⟩

end Stays

/-- A `PT_LOAD` header of `size` bytes at `vaddr`. -/
def plainPhdr (vaddr size : Word) : Phdr := ⟨ptLoad, 7, vaddr, size⟩

/-- On a machine that has just booted a one-page image gets the first kernel page. -/
theorem demoInit_reserve : ∃ s₀ t, Booted s₀
    ∧ (s₀.lock 0).getFreeRange 0 kernelStart 1 = some (kernelStart, t) := by
  have hfind : (demoInit.bind fun s => ((s.lock 0).getFreeRange 0 kernelStart 1).map Prod.fst)
      = some kernelStart := by
    decide +kernel
  obtain ⟨s₀, hs₀, hfind⟩ := Option.bind_eq_some_iff.mp hfind
  obtain ⟨⟨base, t⟩, hfind, rfl⟩ := Option.map_eq_some_iff.mp hfind
  exact ⟨s₀, t, ⟨_, _, _, _, _, _, hs₀⟩, hfind⟩

theorem load_stays_iff_page_zero :
    StaysInside kernelStart 1 (mappedPages (.ofNat 64 kernelStart) [plainPhdr 0 0x1000]) := by
  obtain ⟨s₀, t, hboot, hfind⟩ := demoInit_reserve
  have hfind : (s₀.lock 0).getFreeRange 0 kernelStart (modPageSize [plainPhdr 0 0x1000])
      = some (kernelStart, t) := hfind
  refine (load_stays_iff hboot .init hfind (by decide)).2.mpr
    ⟨by decide, ?_, List.pairwise_singleton _ _⟩
  intro ph hph _
  exact ⟨ph, hph, ph, hph, by rw [List.mem_singleton.mp hph]; decide⟩

/-- **A segment that does not start in page 0 is mapped behind the reservation**, here
the second page of a range of one; and two segments in one page map it twice. -/
theorem high_segment_outside :
    (¬ ∀ s₀ hist s t phdrs base, Booted s₀ → Run PagingStep s₀ hist s →
        (s.lock 0).getFreeRange 0 kernelStart (modPageSize phdrs) = some (base, t) → base ≠ 0 →
        StaysInside base (modPageSize phdrs) (mappedPages (.ofNat 64 base) phdrs))
      ∧ mappedPages (.ofNat 64 kernelStart) [plainPhdr 0x1000 0x1000] = [0xFFFFFFFF80001000]
      ∧ mappedPages (.ofNat 64 kernelStart) [plainPhdr 0 0x800, plainPhdr 0x800 0x800]
        = [0xFFFFFFFF80000000, 0xFFFFFFFF80000000] := by
  refine ⟨?_, by decide, by decide⟩
  intro hclaim
  obtain ⟨s₀, t, hboot, hfind⟩ := demoInit_reserve
  have hstays := hclaim s₀ [] s₀ t [plainPhdr 0x1000 0x1000] kernelStart hboot .init hfind (by decide)
  have hinside := hstays.inside 0xFFFFFFFF80001000 (by decide)
  exact absurd hinside (by decide)

end MierOS.Modules.Loading
