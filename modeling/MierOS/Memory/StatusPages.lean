/-
  MierOS.Memory.StatusPages
  **The status bits of `physical.cpp` in memory**: which byte of `status_pages`
  and which bit of it stand for a page, and how many blocks `init_pmm` makes.

  `status_pages` is an array of blocks of 0x20000 bytes, one for each 4 GiB.  The
  index into `used_bitmap` is the page number shifted and masked with
  `0x1FFFFFFF`, which leaves twelve bits of the BLOCK number in it: the byte of an
  address in block `b` is in the bitmap of block `b + b % 4096`.

  `Memory.Physical` reads the same bits as one bit a page number; that is right
  below 4 GiB (`Agrees.initPmm`).

  Main results: `page_status_addressing`, `init_pmm_covers`.
-/
import MierOS.Memory.Physical
import Mathlib.Logic.Function.Basic

namespace MierOS.Memory.StatusPages

open Memory.Physical

/-! ## §1. The status byte of an address. -/

/-- Memory from `status_pages` on, byte by byte. -/
abbrev Bytes := Nat → BitVec 8

/-- `sizeof(page_4gb_status_struct)`. -/
def blockBytes : Nat := 0x20000

/-- Where `&status_pages[address >> 20].used_bitmap[(address >> 3) & 0x1FFFFFFF]` is, after
`address >>= 12`. -/
def statusByte (address : Nat) : Nat :=
  let address := address >>> 12
  (address >>> 20) * blockBytes + ((address >>> 3) &&& 0x1FFFFFFF)

/-- `bit_offset`. -/
def bitOffset (address : Nat) : Nat := (address >>> 12) &&& 7

/-- `set_page_status(address, status)`. -/
def setPageStatus (m : Bytes) (address : Nat) (status : Bool) : Bytes :=
  let byte := m (statusByte address) &&& ~~~(1#8 <<< bitOffset address)
  Function.update m (statusByte address)
    (byte ||| ((if status then 1#8 else 0#8) <<< bitOffset address))

/-- `is_page_used(address)`. -/
def isPageUsed (m : Bytes) (address : Nat) : Bool :=
  decide ((m (statusByte address) >>> bitOffset address) &&& 1#8 = 1#8)

/-- The block of an address. -/
def blockOf (address : Nat) : Nat := address >>> 32

/-- The byte lies inside `used_bitmap` of the address's own block. -/
def Inside (address : Nat) : Prop :=
  blockOf address * blockBytes ≤ statusByte address
    ∧ statusByte address < (blockOf address + 1) * blockBytes

/-- Two addresses have the same status bit. -/
def SameBit (a b : Nat) : Prop := statusByte a = statusByte b ∧ bitOffset a = bitOffset b

instance (a b : Nat) : Decidable (SameBit a b) := inferInstanceAs (Decidable (_ ∧ _))

variable {m : Bytes} {a b : Nat} {status : Bool}

/-- **The mask leaves twelve bits of the block number.** -/
theorem statusByte_eq (a : Nat) :
    statusByte a = (blockOf a + blockOf a % 4096) * blockBytes + a / 2 ^ 15 % blockBytes := by
  unfold statusByte blockOf blockBytes
  simp only [Nat.shiftRight_eq_div_pow]
  rw [show (0x1FFFFFFF : Nat) = 2 ^ 29 - 1 from rfl, Nat.and_two_pow_sub_one_eq_mod]
  omega

theorem bitOffset_eq (a : Nat) : bitOffset a = a / 2 ^ 12 % 8 := by
  unfold bitOffset
  rw [Nat.shiftRight_eq_div_pow, show (7 : Nat) = 2 ^ 3 - 1 from rfl,
    Nat.and_two_pow_sub_one_eq_mod]

theorem bitOffset_lt (a : Nat) : bitOffset a < 8 := by
  rw [bitOffset_eq]
  omega

/-- **Which bits are shared**: the same page of blocks whose numbers come out the same. -/
theorem sameBit_iff (a b : Nat) :
    SameBit a b ↔ blockOf a + blockOf a % 4096 = blockOf b + blockOf b % 4096
      ∧ a / 2 ^ 12 % 2 ^ 20 = b / 2 ^ 12 % 2 ^ 20 := by
  unfold SameBit
  rw [statusByte_eq, statusByte_eq, bitOffset_eq, bitOffset_eq]
  unfold blockBytes
  omega

theorem inside_iff (a : Nat) : Inside a ↔ blockOf a % 4096 = 0 := by
  unfold Inside
  rw [statusByte_eq]
  unfold blockBytes
  omega

/-- The two writes to the byte at `p`, read bit by bit. -/
theorem getLsbD_written (m : Bytes) (status : Bool) (p q i : Nat) {j : Nat} (hj : j < 8) :
    (Function.update m p (m p &&& ~~~(1#8 <<< i) ||| ((if status then 1#8 else 0#8) <<< i)) q).getLsbD j
      = if p = q ∧ i = j then status else (m q).getLsbD j := by
  by_cases hpq : p = q
  · subst hpq
    rw [Function.update_self]
    cases status <;> simp [BitVec.getLsbD_or, BitVec.getLsbD_and, BitVec.getLsbD_not] <;> grind
  · rw [Function.update_of_ne (Ne.symm hpq), if_neg fun h => hpq h.1]

theorem isPageUsed_eq (m : Bytes) (a : Nat) :
    isPageUsed m a = (m (statusByte a)).getLsbD (bitOffset a) := by
  unfold isPageUsed
  rw [BitVec.and_one_eq_setWidth_ofBool_getLsbD, BitVec.getLsbD_ushiftRight, Nat.add_zero]
  cases (m (statusByte a)).getLsbD (bitOffset a) <;> decide

/-- **What `is_page_used` answers after `set_page_status`.** -/
theorem isPageUsed_set (m : Bytes) (a b : Nat) (status : Bool) :
    isPageUsed (setPageStatus m a status) b
      = if SameBit a b then status else isPageUsed m b := by
  rw [isPageUsed_eq, isPageUsed_eq]
  exact getLsbD_written m status (statusByte a) (statusByte b) (bitOffset a) (bitOffset_lt b)

/-! ## §2. Which addresses it is right for. -/

/-- The addresses are in the same 4 KiB page. -/
def SamePage (a b : Nat) : Prop := a >>> 12 = b >>> 12

instance (a b : Nat) : Decidable (SamePage a b) := inferInstanceAs (Decidable (_ = _))

/-- Setting the status of `a` is seen at `b` exactly when they are in the same page. -/
def Faithful (a b : Nat) : Prop :=
  ∀ m status, isPageUsed (setPageStatus m a status) b
    = if SamePage a b then status else isPageUsed m b

/-- Different pages at the same place of blocks `b₁` and `b₂` with
`b₁ + b₁ % 4096 = b₂ + b₂ % 4096`. -/
def Alias (a b : Nat) : Prop :=
  blockOf a ≠ blockOf b ∧ blockOf a + blockOf a % 4096 = blockOf b + blockOf b % 4096
    ∧ a / 2 ^ 12 % 2 ^ 20 = b / 2 ^ 12 % 2 ^ 20

theorem SamePage.sameBit (h : SamePage a b) : SameBit a b := by
  unfold SamePage at h
  rw [sameBit_iff]
  unfold blockOf
  simp only [Nat.shiftRight_eq_div_pow] at h ⊢
  omega

theorem alias_iff (a b : Nat) : Alias a b ↔ SameBit a b ∧ ¬ SamePage a b := by
  rw [sameBit_iff]
  unfold Alias SamePage blockOf
  simp only [Nat.shiftRight_eq_div_pow]
  omega

theorem faithful_iff (a b : Nat) : Faithful a b ↔ ¬ Alias a b := by
  rw [alias_iff]
  constructor
  · intro h ⟨hbit, hpage⟩
    -- a bit that was clear is seen set
    have hset := h (fun _ => 0#8) true
    rw [isPageUsed_set, if_pos hbit, if_neg hpage, isPageUsed_eq] at hset
    simp at hset
  · intro h m status
    rw [isPageUsed_set]
    by_cases hpage : SamePage a b
    · rw [if_pos hpage.sameBit, if_pos hpage]
    · rw [if_neg hpage, if_neg fun hbit => h ⟨hbit, hpage⟩]

/-- The claim for `count` blocks. -/
def AddressedBelow (count : Nat) : Prop :=
  (∀ a < 2 ^ 64, a < count * 2 ^ 32 → Inside a)
    ∧ ∀ a b, a < 2 ^ 64 → b < 2 ^ 64 → a < count * 2 ^ 32 → b < count * 2 ^ 32 → Faithful a b

/-- **PAGE STATUS ADDRESSING**: the byte of an address lies inside its own block's bitmap
exactly when the block number is a multiple of 4096, two addresses get in each other's way
exactly when they alias, and so all is well for `count` blocks exactly when there is one. -/
theorem page_status_addressing {count : Nat} (hcount : 1 ≤ count) :
    (AddressedBelow count ↔ count = 1)
      ∧ (∀ a, Inside a ↔ blockOf a % 4096 = 0)
      ∧ ∀ a b, Faithful a b ↔ ¬ Alias a b := by
  refine ⟨⟨fun h => ?_, fun h => ?_⟩, inside_iff, faithful_iff⟩
  · -- 4 GiB is in block 1
    by_contra hne
    have hinside := (inside_iff (2 ^ 32)).mp (h.1 (2 ^ 32) (by decide) (by omega))
    exact absurd hinside (by decide)
  · subst h
    have hblock : ∀ a, a < 1 * 2 ^ 32 → blockOf a = 0 := fun a ha => by
      unfold blockOf
      rw [Nat.shiftRight_eq_div_pow]
      omega
    refine ⟨fun a _ ha => (inside_iff a).mpr (by rw [hblock a ha]), fun a b _ _ ha hb => ?_⟩
    rw [faithful_iff]
    intro halias
    exact halias.1 ((hblock a ha).trans (hblock b hb).symm)

/-- Two blocks, and the two that share their bits first. -/
theorem page_status_addressing_two_blocks :
    ¬ AddressedBelow 2 ∧ ¬ Inside (2 ^ 32) ∧ ¬ Faithful (2048 * 2 ^ 32) (4096 * 2 ^ 32) := by
  obtain ⟨hcount, hinside, hfaithful⟩ := page_status_addressing (show 1 ≤ 2 by decide)
  refine ⟨fun h => absurd (hcount.mp h) (by decide), fun h => ?_, fun h => ?_⟩
  · exact absurd ((hinside _).mp h) (by decide)
  · exact (hfaithful _ _).mp h (by unfold Alias; decide)

/-- **The byte of 4 GiB** is in the bitmap of block 2, not of block 1. -/
theorem byte_of_4_gib_misplaced :
    ¬ ∀ count, 1 ≤ count → AddressedBelow count := by
  intro hclaim
  have hinside := (hclaim 2 (by decide)).1 (2 ^ 32) (by decide) (by decide)
  exact absurd ((inside_iff _).mp hinside) (by decide)

/-! ## §3. `init_pmm`. -/

/-- `max_address`: the highest base of an entry that is not reserved. -/
def maxAddress (memoryMap : List MemmapEntry) : Nat :=
  memoryMap.foldl
    (fun maxAddress e =>
      if maxAddress < e.base.toNat ∧ e.type ≠ .reserved then e.base.toNat else maxAddress) 0

/-- `gb_page_count`, a `u32_t`. -/
def gbPageCount (memoryMap : List MemmapEntry) : Nat :=
  let maxAddress := maxAddress memoryMap
  ((maxAddress >>> 32) + if maxAddress &&& 0xFFFFFFFF = 0 then 0 else 1) % 2 ^ 32

/-- The `memset` of every block. -/
def fillUsed (m : Bytes) (count : Nat) : Bytes :=
  (List.range count).foldl
    (fun m i byte => if i * blockBytes ≤ byte ∧ byte < (i + 1) * blockBytes then 0xFF#8 else m byte) m

/-- `set_page_status(addr + page, status)` for `page_count` pages; addresses wrap. -/
def setPagesStatus (m : Bytes) (addr pageCount : Nat) (status : Bool) : Bytes :=
  (List.range pageCount).foldl (fun m i => setPageStatus m ((addr + i * 4096) % 2 ^ 64) status) m

/-- What `init_pmm` leaves: the memory from `status_pages` on,
`pmm_first_potential_page`, the ranges added to `freeable_mem`, and `free_mem`. -/
structure InitPmm where
  bytes : Bytes
  firstPotentialPage : Nat
  freeable : List (UInt64 × UInt64)
  freeMem : UInt64

/-- One round of the loop over the entries. -/
def initEntry (s : InitPmm) (e : MemmapEntry) : InitPmm :=
  match e.type with
  | .usable =>
      { s with
        firstPotentialPage :=
          if s.firstPotentialPage > e.base.toNat then e.base.toNat else s.firstPotentialPage
        bytes := setPagesStatus s.bytes e.base.toNat ((e.length.toNat + 4095) / 4096) false
        freeMem := s.freeMem + e.length }
  | .bootloaderReclaimable => { s with freeable := s.freeable ++ [(e.base, e.base + e.length)] }
  | _ => s

/-- Everything used and the hint at `~0`. -/
def initStart (m : Bytes) (memoryMap : List MemmapEntry) : InitPmm where
  bytes := fillUsed m (gbPageCount memoryMap)
  firstPotentialPage := 2 ^ 64 - 1
  freeable := []
  freeMem := 0

/-- `init_pmm(memory_map)`, in a memory that holds `m` from `status_pages` on. -/
def initPmm (m : Bytes) (memoryMap : List MemmapEntry) : InitPmm :=
  let s := memoryMap.foldl initEntry (initStart m memoryMap)
  { s with
    bytes := setPagesStatus s.bytes 0 256 true
    freeable := s.freeable ++ [(0, 1024 * 1024)] }

/-- The address lies in the entry; an entry at the end of the address space wraps. -/
def InEntry (e : MemmapEntry) (a : Nat) : Prop :=
  (a + (2 ^ 64 - e.base.toNat)) % 2 ^ 64 < e.length.toNat

/-- The address lies in a usable entry. -/
def Usable (memoryMap : List MemmapEntry) (a : Nat) : Prop :=
  ∃ e ∈ memoryMap, e.type = .usable ∧ InEntry e a

/-- Usable entries are made of whole pages. -/
def AlignedEntries (memoryMap : List MemmapEntry) : Prop :=
  ∀ e ∈ memoryMap, e.type = .usable → e.base.toNat % 4096 = 0 ∧ e.length.toNat % 4096 = 0

/-- **`init_pmm` covers the machine**: the bits of usable pages are in the array, and of
the pages the array is for those are free that are usable and not in the first MiB. -/
def Covers (m : Bytes) (memoryMap : List MemmapEntry) : Prop :=
  (∀ a < 2 ^ 64, Usable memoryMap a → statusByte a < gbPageCount memoryMap * blockBytes)
    ∧ ∀ a < 2 ^ 64, a < gbPageCount memoryMap * 2 ^ 32 →
        (isPageUsed (initPmm m memoryMap).bytes a = false ↔ Usable memoryMap a ∧ 2 ^ 20 ≤ a)

/-! ## §4. What the loops write. -/

variable {e : MemmapEntry} {memoryMap : List MemmapEntry} {c : Nat}

theorem inEntry_iff (hle : e.base.toNat + e.length.toNat ≤ 2 ^ 64) (ha : a < 2 ^ 64) :
    InEntry e a ↔ e.base.toNat ≤ a ∧ a < e.base.toNat + e.length.toNat := by
  have hbase := e.base.toNat_lt
  unfold InEntry
  omega

theorem SameBit.trans (hab : SameBit a b) (hbc : SameBit b c) : SameBit a c :=
  ⟨hab.1.trans hbc.1, hab.2.trans hbc.2⟩

/-- Either some page that is written has the bit of `b`, and this decides, or none has. -/
theorem isPageUsed_setPages (m : Bytes) (addr n : Nat) (status : Bool) (b : Nat) :
    ((∃ i < n, SameBit ((addr + i * 4096) % 2 ^ 64) b)
        ∧ isPageUsed (setPagesStatus m addr n status) b = status)
      ∨ ((∀ i < n, ¬ SameBit ((addr + i * 4096) % 2 ^ 64) b)
        ∧ isPageUsed (setPagesStatus m addr n status) b = isPageUsed m b) := by
  induction n with
  | zero => exact Or.inr ⟨fun i hi => absurd hi (Nat.not_lt_zero i), rfl⟩
  | succ n ih =>
      have hlast : isPageUsed (setPagesStatus m addr (n + 1) status) b
          = if SameBit ((addr + n * 4096) % 2 ^ 64) b then status
            else isPageUsed (setPagesStatus m addr n status) b := by
        unfold setPagesStatus
        rw [List.range_succ, List.foldl_append]
        exact isPageUsed_set _ _ b status
      by_cases hsame : SameBit ((addr + n * 4096) % 2 ^ 64) b
      · rw [if_pos hsame] at hlast
        exact Or.inl ⟨⟨n, Nat.lt_succ_self n, hsame⟩, hlast⟩
      · rw [if_neg hsame] at hlast
        rcases ih with ⟨⟨i, hi, hbit⟩, heq⟩ | ⟨hnone, heq⟩
        · exact Or.inl ⟨⟨i, Nat.lt_succ_of_lt hi, hbit⟩, hlast.trans heq⟩
        · refine Or.inr ⟨fun i hi => ?_, hlast.trans heq⟩
          rcases Nat.lt_succ_iff_lt_or_eq.mp hi with hi | rfl
          · exact hnone i hi
          · exact hsame

/-- The pages that the loop over one entry visits are those of the entry. -/
theorem exists_inEntry_iff (hbase : e.base.toNat % 4096 = 0) (hlength : e.length.toNat % 4096 = 0)
    (b : Nat) :
    (∃ i < (e.length.toNat + 4095) / 4096, SameBit ((e.base.toNat + i * 4096) % 2 ^ 64) b)
      ↔ ∃ a < 2 ^ 64, InEntry e a ∧ SameBit a b := by
  have hb := e.base.toNat_lt
  have hl := e.length.toNat_lt
  constructor
  · intro ⟨i, hi, hbit⟩
    refine ⟨(e.base.toNat + i * 4096) % 2 ^ 64, Nat.mod_lt _ (by decide), ?_, hbit⟩
    unfold InEntry
    omega
  · intro ⟨a, ha, hin, hbit⟩
    unfold InEntry at hin
    refine ⟨(a + (2 ^ 64 - e.base.toNat)) % 2 ^ 64 / 4096, by omega, SameBit.trans ?_ hbit⟩
    -- the page starts where the loop says
    refine SamePage.sameBit ?_
    unfold SamePage
    simp only [Nat.shiftRight_eq_div_pow]
    omega

/-- **The loop over the entries** clears the bits of the usable pages. -/
theorem isPageUsed_initEntries (b : Nat) : ∀ (memoryMap : List MemmapEntry) (s : InitPmm),
    AlignedEntries memoryMap →
    ((∃ a < 2 ^ 64, Usable memoryMap a ∧ SameBit a b)
        ∧ isPageUsed (memoryMap.foldl initEntry s).bytes b = false)
      ∨ ((∀ a < 2 ^ 64, Usable memoryMap a → ¬ SameBit a b)
        ∧ isPageUsed (memoryMap.foldl initEntry s).bytes b = isPageUsed s.bytes b) := by
  intro memoryMap
  induction memoryMap with
  | nil => intro s _; exact Or.inr ⟨fun a _ ⟨e, he, _⟩ => absurd he List.not_mem_nil, rfl⟩
  | cons e memoryMap ih =>
      intro s hal
      have hrest := ih (initEntry s e) fun e' he' => hal e' (List.mem_cons_of_mem e he')
      rw [List.foldl_cons]
      rcases hrest with ⟨⟨a, ha, ⟨e', he', husable, hin⟩, hbit⟩, heq⟩ | ⟨hnone, heq⟩
      · exact Or.inl ⟨⟨a, ha, ⟨e', List.mem_cons_of_mem e he', husable, hin⟩, hbit⟩, heq⟩
      · by_cases husable : e.type = .usable
        · obtain ⟨hbase, hlength⟩ := hal e List.mem_cons_self husable
          have hvisits := exists_inEntry_iff hbase hlength b
          have hbytes : (initEntry s e).bytes
              = setPagesStatus s.bytes e.base.toNat ((e.length.toNat + 4095) / 4096) false := by
            unfold initEntry
            rw [husable]
          have hset := isPageUsed_setPages s.bytes e.base.toNat
            ((e.length.toNat + 4095) / 4096) false b
          rw [hbytes] at heq
          rcases hset with ⟨hsome, hset⟩ | ⟨hno, hset⟩
          · obtain ⟨a, ha, hin, hbit⟩ := hvisits.mp hsome
            exact Or.inl ⟨⟨a, ha, ⟨e, List.mem_cons_self, husable, hin⟩, hbit⟩, heq.trans hset⟩
          · refine Or.inr ⟨fun a ha ⟨e', he', husable', hin⟩ hbit => ?_, heq.trans hset⟩
            rcases List.mem_cons.mp he' with rfl | he'
            · obtain ⟨i, hi, hbit'⟩ := hvisits.mpr ⟨a, ha, hin, hbit⟩
              exact hno i hi hbit'
            · exact hnone a ha ⟨e', he', husable', hin⟩ hbit
        · have hbytes : (initEntry s e).bytes = s.bytes := by
            unfold initEntry
            cases htype : e.type with
            | usable => exact absurd htype husable
            | _ => rfl
          rw [hbytes] at heq
          refine Or.inr ⟨fun a ha ⟨e', he', husable', hin⟩ hbit => ?_, heq⟩
          rcases List.mem_cons.mp he' with rfl | he'
          · exact husable husable'
          · exact hnone a ha ⟨e', he', husable', hin⟩ hbit

/-- **The blocks are filled** and nothing behind them is. -/
theorem fillUsed_eq (m : Bytes) (count byte : Nat) :
    fillUsed m count byte = if byte < count * blockBytes then 0xFF#8 else m byte := by
  induction count with
  | zero => rw [if_neg (by omega)]; rfl
  | succ count ih =>
      have hlast : fillUsed m (count + 1) byte
          = if count * blockBytes ≤ byte ∧ byte < (count + 1) * blockBytes then 0xFF#8
            else fillUsed m count byte := by
        unfold fillUsed
        rw [List.range_succ, List.foldl_append, List.foldl_cons, List.foldl_nil]
      rw [hlast, ih]
      unfold blockBytes
      split_ifs <;> first | rfl | omega

theorem isPageUsed_fill (m : Bytes) (count a : Nat) :
    isPageUsed (fillUsed m count) a
      = if statusByte a < count * blockBytes then true else isPageUsed m a := by
  rw [isPageUsed_eq, isPageUsed_eq, fillUsed_eq]
  split
  · have hbit := bitOffset_lt a
    generalize bitOffset a = j at hbit
    decide +revert
  · rfl

/-- **What `init_pmm` makes of a bit**: used for the first MiB, free for usable pages,
otherwise as the blocks were filled. -/
theorem isPageUsed_initPmm (m : Bytes) (hal : AlignedEntries memoryMap) (b : Nat) :
    isPageUsed (initPmm m memoryMap).bytes b = true
      ↔ (∃ i < 256, SameBit ((0 + i * 4096) % 2 ^ 64) b)
        ∨ (∀ a < 2 ^ 64, Usable memoryMap a → ¬ SameBit a b)
          ∧ (statusByte b < gbPageCount memoryMap * blockBytes ∨ isPageUsed m b = true) := by
  have hentries := isPageUsed_initEntries b memoryMap (initStart m memoryMap) hal
  have hfill := isPageUsed_fill m (gbPageCount memoryMap) b
  simp only [initPmm]
  generalize memoryMap.foldl initEntry (initStart m memoryMap) = s at hentries
  have hfirst := isPageUsed_setPages s.bytes 0 256 true b
  rcases hfirst with ⟨hsome, heq⟩ | ⟨hnone, heq⟩
  · exact iff_of_true heq (Or.inl hsome)
  · rw [heq]
    have hnot : ¬ ∃ i < 256, SameBit ((0 + i * 4096) % 2 ^ 64) b := fun ⟨i, hi, hbit⟩ =>
      hnone i hi hbit
    rw [or_iff_right hnot]
    rcases hentries with ⟨⟨a, ha, husable, hbit⟩, heq'⟩ | ⟨hno, heq'⟩
    · exact iff_of_false (by rw [heq']; decide) fun h => h.1 a ha husable hbit
    · rw [heq', and_iff_right hno,
        show (initStart m memoryMap).bytes = fillUsed m (gbPageCount memoryMap) from rfl, hfill]
      split
      · exact iff_of_true rfl (Or.inl ‹_›)
      · rw [or_iff_right ‹_›]

/-! ## §5. Which maps it covers. -/

theorem maxAddress_lt (memoryMap : List MemmapEntry) : maxAddress memoryMap < 2 ^ 64 := by
  unfold maxAddress
  have hfold : ∀ (l : List MemmapEntry) (n : Nat), n < 2 ^ 64 →
      l.foldl (fun maxAddress e =>
        if maxAddress < e.base.toNat ∧ e.type ≠ .reserved then e.base.toNat else maxAddress) n
        < 2 ^ 64 := by
    intro l
    induction l with
    | nil => intro n hn; exact hn
    | cons e l ih =>
        intro n hn
        rw [List.foldl_cons]
        apply ih
        split
        · exact e.base.toNat_lt
        · exact hn
  exact hfold memoryMap 0 (by decide)

theorem gbPageCount_eq (memoryMap : List MemmapEntry) :
    gbPageCount memoryMap
      = (maxAddress memoryMap / 2 ^ 32 + if maxAddress memoryMap % 2 ^ 32 = 0 then 0 else 1)
        % 2 ^ 32 := by
  unfold gbPageCount
  simp only [Nat.shiftRight_eq_div_pow]
  rw [show (0xFFFFFFFF : Nat) = 2 ^ 32 - 1 from rfl, Nat.and_two_pow_sub_one_eq_mod]

/-- No block: there is no address to count, or the count wraps. -/
theorem gbPageCount_eq_zero_iff :
    gbPageCount memoryMap = 0
      ↔ maxAddress memoryMap = 0 ∨ 2 ^ 64 - 2 ^ 32 < maxAddress memoryMap := by
  have hlt := maxAddress_lt memoryMap
  rw [gbPageCount_eq]
  split <;> omega

/-- One block: the highest base is at most at 4 GiB. -/
theorem gbPageCount_eq_one_iff :
    gbPageCount memoryMap = 1 ↔ 0 < maxAddress memoryMap ∧ maxAddress memoryMap ≤ 2 ^ 32 := by
  have hlt := maxAddress_lt memoryMap
  rw [gbPageCount_eq]
  split <;> omega

theorem statusByte_lt_block_iff (a : Nat) : statusByte a < 1 * blockBytes ↔ a < 2 ^ 32 := by
  rw [statusByte_eq]
  unfold blockOf blockBytes
  rw [Nat.shiftRight_eq_div_pow]
  omega

/-- Below 4 GiB the bits are the pages. -/
theorem sameBit_iff_samePage (ha : a < 2 ^ 32) (hb : b < 2 ^ 32) : SameBit a b ↔ SamePage a b := by
  rw [sameBit_iff]
  unfold SamePage blockOf
  simp only [Nat.shiftRight_eq_div_pow]
  omega

/-- A page is in an entry or it is not. -/
theorem InEntry.samePage (hbase : e.base.toNat % 4096 = 0) (hlength : e.length.toNat % 4096 = 0)
    (hsame : SamePage a b) (hin : InEntry e a) : InEntry e b := by
  have hbound := e.base.toNat_lt
  unfold InEntry at hin ⊢
  unfold SamePage at hsame
  simp only [Nat.shiftRight_eq_div_pow] at hsame
  omega

theorem Usable.samePage (hal : AlignedEntries memoryMap) (hsame : SamePage a b)
    (h : Usable memoryMap a) : Usable memoryMap b := by
  obtain ⟨e, he, husable, hin⟩ := h
  obtain ⟨hbase, hlength⟩ := hal e he husable
  exact ⟨e, he, husable, hin.samePage hbase hlength hsame⟩

theorem exists_first_iff (hb : b < 2 ^ 32) :
    (∃ i < 256, SameBit ((0 + i * 4096) % 2 ^ 64) b) ↔ b < 2 ^ 20 := by
  constructor
  · intro ⟨i, hi, hbit⟩
    have hpage := (sameBit_iff_samePage (by omega) hb).mp hbit
    unfold SamePage at hpage
    simp only [Nat.shiftRight_eq_div_pow] at hpage
    omega
  · intro hlt
    refine ⟨b / 4096, by omega, (sameBit_iff_samePage (by omega) hb).mpr ?_⟩
    unfold SamePage
    simp only [Nat.shiftRight_eq_div_pow]
    omega

/-- **One block and usable pages below 4 GiB**: all is well. -/
theorem covers_of_one (m : Bytes) (hal : AlignedEntries memoryMap)
    (hone : gbPageCount memoryMap = 1) (hbelow : ∀ a < 2 ^ 64, Usable memoryMap a → a < 2 ^ 32) :
    Covers m memoryMap := by
  refine ⟨fun a ha husable => ?_, fun b hb hlt => ?_⟩
  · rw [hone]
    exact (statusByte_lt_block_iff a).mpr (hbelow a ha husable)
  · rw [hone, Nat.one_mul] at hlt
    have hiff := isPageUsed_initPmm m hal b
    have hbyte := (statusByte_lt_block_iff b).mpr hlt
    rw [hone, exists_first_iff hlt, and_iff_left (Or.inl hbyte)] at hiff
    rw [← Bool.not_eq_true, hiff, not_or, not_forall, and_comm, not_lt]
    refine and_congr_left fun _ => ⟨fun ⟨a, hnot⟩ => ?_, fun husable => ⟨b, fun h => ?_⟩⟩
    · obtain ⟨ha, hnot⟩ := Classical.not_imp.mp hnot
      obtain ⟨husable, hbit⟩ := Classical.not_imp.mp hnot
      have hpage := (sameBit_iff_samePage (hbelow a ha husable) hlt).mp (not_not.mp hbit)
      exact husable.samePage hal hpage
    · exact h hb husable ⟨rfl, rfl⟩

/-- **Two blocks or more**: some block below the count has its bytes behind the array. -/
theorem exists_block_outside {count : Nat} (hcount : 2 ≤ count) (hlt : count < 2 ^ 32) :
    ∃ a < 2 ^ 64, a < count * 2 ^ 32 ∧ 1 ≤ blockOf a ∧ count * blockBytes ≤ statusByte a := by
  have hplace : ∀ block, blockOf (block * 2 ^ 32) = block := fun block => by
    unfold blockOf
    rw [Nat.shiftRight_eq_div_pow]
    omega
  by_cases hmod : (count - 1) % 4096 = 0
  · refine ⟨(count - 2) * 2 ^ 32, by omega, by omega, ?_, ?_⟩
    · rw [hplace]
      omega
    · rw [statusByte_eq, hplace]
      unfold blockBytes
      omega
  · refine ⟨(count - 1) * 2 ^ 32, by omega, by omega, ?_, ?_⟩
    · rw [hplace]
      omega
    · rw [statusByte_eq, hplace]
      unfold blockBytes
      omega

/-- **`init_pmm` COVERS EXACTLY THE MAPS** for which it makes one block and every usable
page lies below 4 GiB, and those without a usable page for which it makes none. -/
theorem init_pmm_covers (hal : AlignedEntries memoryMap) :
    (∀ m, Covers m memoryMap)
      ↔ (0 < maxAddress memoryMap ∧ maxAddress memoryMap ≤ 2 ^ 32
          ∧ ∀ a < 2 ^ 64, Usable memoryMap a → a < 2 ^ 32)
        ∨ ((maxAddress memoryMap = 0 ∨ 2 ^ 64 - 2 ^ 32 < maxAddress memoryMap)
          ∧ ∀ a < 2 ^ 64, ¬ Usable memoryMap a) := by
  rw [← and_assoc, ← gbPageCount_eq_one_iff, ← gbPageCount_eq_zero_iff]
  constructor
  · intro h
    obtain ⟨hinside, hfree⟩ := h fun _ => 0#8
    by_cases hzero : gbPageCount memoryMap = 0
    · refine Or.inr ⟨hzero, fun a ha husable => ?_⟩
      have hlt := hinside a ha husable
      rw [hzero] at hlt
      omega
    by_cases hone : gbPageCount memoryMap = 1
    · refine Or.inl ⟨hone, fun a ha husable => ?_⟩
      have hlt := hinside a ha husable
      rw [hone] at hlt
      exact (statusByte_lt_block_iff a).mp hlt
    -- a page whose byte is not in the array reads free, and is not usable
    exfalso
    have hcount : gbPageCount memoryMap < 2 ^ 32 := by
      rw [gbPageCount_eq]
      exact Nat.mod_lt _ (by decide)
    obtain ⟨a, ha, hlt, hblock, houtside⟩ := exists_block_outside (by omega) hcount
    have hnot : ¬ Usable memoryMap a := fun husable => by
      have hin := hinside a ha husable
      omega
    have hused : isPageUsed (initPmm (fun _ => 0#8) memoryMap).bytes a = true := by
      rw [← Bool.not_eq_false]
      exact fun hclear => hnot ((hfree a ha hlt).mp hclear).1
    rcases (isPageUsed_initPmm _ hal a).mp hused with ⟨i, hi, hbit⟩ | ⟨-, hin | hzero'⟩
    · have hbyte := hbit.1
      have hfirst := (statusByte_lt_block_iff ((0 + i * 4096) % 2 ^ 64)).mpr (by omega)
      unfold blockBytes at hfirst houtside
      omega
    · omega
    · rw [isPageUsed_eq] at hzero'
      simp at hzero'
  · intro h m
    rcases h with ⟨hone, hbelow⟩ | ⟨hzero, hnone⟩
    · exact covers_of_one m hal hone hbelow
    · refine ⟨fun a ha husable => absurd husable (hnone a ha), fun a _ hlt => ?_⟩
      rw [hzero] at hlt
      omega

/-- The map of a machine with 128 MiB. -/
def smallMachine : List MemmapEntry :=
  [⟨0, 0x9F000, .usable⟩, ⟨0x9F000, 0x61000, .reserved⟩, ⟨0x100000, 0x7F00000, .usable⟩]

theorem smallMachine_usable {a : Nat} (ha : a < 2 ^ 64) (h : Usable smallMachine a) :
    a < 2 ^ 32 := by
  obtain ⟨e, he, husable, hin⟩ := h
  simp only [smallMachine, List.mem_cons, List.not_mem_nil, or_false] at he
  rcases he with rfl | rfl | rfl
  · exact lt_of_lt_of_le ((inEntry_iff (by decide) ha).mp hin).2 (by decide)
  · cases husable
  · exact lt_of_lt_of_le ((inEntry_iff (by decide) ha).mp hin).2 (by decide)

theorem init_pmm_covers_smallMachine : Covers (fun _ => 0#8) smallMachine := by
  have hal : AlignedEntries smallMachine := by
    unfold AlignedEntries
    decide
  exact (init_pmm_covers hal).mpr
    (Or.inl ⟨by decide, by decide, fun a ha h => smallMachine_usable ha h⟩) _

/-- **Memory from 4 GiB on** has no block: the highest base is 4 GiB, and one block is made. -/
theorem region_at_4_gib_uncovered :
    ¬ ∀ (m : Bytes) (memoryMap : List MemmapEntry), AlignedEntries memoryMap →
      Covers m memoryMap := by
  intro hclaim
  have hal : AlignedEntries [⟨0x100000000, 0x40000000, .usable⟩] := by
    unfold AlignedEntries
    decide
  have hone : gbPageCount [⟨0x100000000, 0x40000000, .usable⟩] = 1 :=
    gbPageCount_eq_one_iff.mpr (by decide)
  have hin : InEntry ⟨0x100000000, 0x40000000, .usable⟩ (2 ^ 32) :=
    (inEntry_iff (by decide) (by decide)).mpr (by decide)
  have hinside := (hclaim (fun _ => 0#8) _ hal).1 (2 ^ 32) (by decide)
    ⟨_, List.mem_cons_self, rfl, hin⟩
  rw [hone, statusByte_lt_block_iff] at hinside
  exact absurd hinside (by decide)

/-! ## §6. The bitmap over page numbers. -/

/-- The bits of the pages below 4 GiB are those of `s`. -/
def Agrees (m : Bytes) (s : Pmm) : Prop :=
  ∀ a < 2 ^ 32, isPageUsed m a = Physical.isPageUsed s a

theorem Agrees.setPageStatus {s : Pmm} (h : Agrees m s) (ha : a < 2 ^ 32) (status : Bool) :
    Agrees (setPageStatus m a status) (Physical.setPageStatus s a status) := by
  intro b hb
  rw [isPageUsed_set, Physical.isPageUsed, setPageStatus_used, h b hb]
  have hiff : SameBit a b ↔ b >>> 12 = a >>> 12 := (sameBit_iff_samePage ha hb).trans eq_comm
  simp only [hiff]
  rfl

/-- **A loop over pages below 4 GiB** does to the bits what it does to the bitmap. -/
theorem Agrees.setPagesStatus {s : Pmm} (h : Agrees m s) {addr : Nat} (n : Nat)
    (hle : n = 0 ∨ addr + n * 4096 ≤ 2 ^ 32) (status : Bool) :
    Agrees (setPagesStatus m addr n status) (Physical.setPagesStatus s addr n status) := by
  induction n with
  | zero => exact h
  | succ n ih =>
      have hrest := ih (by omega)
      have hlast : (addr + n * 4096) % 2 ^ 64 = addr + n <<< 12 := by
        rw [Nat.shiftLeft_eq]
        omega
      have hstep := hrest.setPageStatus (a := addr + n <<< 12) (by
        rw [Nat.shiftLeft_eq]
        omega) status
      unfold StatusPages.setPagesStatus Physical.setPagesStatus at hstep ⊢
      rw [List.range_succ, List.foldl_append, List.foldl_append]
      simp only [List.foldl_cons, List.foldl_nil, hlast]
      exact hstep

/-- **`init_pmm`** makes the bitmap of `Memory.Physical`, for one block and usable entries
that end below 4 GiB. -/
theorem Agrees.initPmm (m : Bytes) (hone : gbPageCount memoryMap = 1)
    (hbelow : ∀ e ∈ memoryMap, e.type = .usable → e.length.toNat = 0
      ∨ e.base.toNat + (e.length.toNat + 4095) / 4096 * 4096 ≤ 2 ^ 32) :
    Agrees (initPmm m memoryMap).bytes (Physical.initPmm memoryMap) := by
  have hloop : ∀ (l : List MemmapEntry) (s : InitPmm) (s' : Pmm), (∀ e ∈ l, e ∈ memoryMap) →
      Agrees s.bytes s' → Agrees (l.foldl initEntry s).bytes (l.foldl Physical.initEntry s') := by
    intro l
    induction l with
    | nil => intro s s' _ h; exact h
    | cons e l ih =>
        intro s s' hmem h
        rw [List.foldl_cons, List.foldl_cons]
        refine ih _ _ (fun e' he' => hmem e' (List.mem_cons_of_mem e he')) ?_
        unfold initEntry Physical.initEntry
        cases htype : e.type with
        | usable =>
            have hend := hbelow e (hmem e List.mem_cons_self) htype
            refine Agrees.setPagesStatus ?_ _ (by omega) false
            intro a ha
            rw [h a ha]
            split <;> rfl
        | _ => exact h
  have hstart : Agrees (initStart m memoryMap).bytes
      { used := fun _ => true, firstPotentialPage := 2 ^ 64 - 1, allocatedPpages := 0 } := by
    intro a ha
    have hfill := isPageUsed_fill m (gbPageCount memoryMap) a
    rw [hone, if_pos ((statusByte_lt_block_iff a).mpr ha)] at hfill
    rw [show (initStart m memoryMap).bytes = fillUsed m (gbPageCount memoryMap) from rfl, hone, hfill]
    rfl
  have hentries := hloop memoryMap _ _ (fun _ he => he) hstart
  simp only [StatusPages.initPmm, Physical.initPmm]
  exact hentries.setPagesStatus 256 (by omega) true

theorem initPmm_smallMachine :
    Agrees (initPmm (fun _ => 0#8) smallMachine).bytes (Physical.initPmm smallMachine) :=
  Agrees.initPmm _ (by decide) (by decide)

end MierOS.Memory.StatusPages
