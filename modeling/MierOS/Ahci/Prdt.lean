/-
  MierOS.Ahci.Prdt
  **THE SCATTER LIST OF A DISK READ**: the table `ahci_ata_read` builds for the
  buffer of a request.

  An entry takes in pages of the buffer for as long as they follow one another
  in physical memory and the entry is SMALLER than 4 MiB, so the last step can
  carry it past that.  It does not when the entry begins on a page boundary,
  and only the first entry can begin elsewhere.  A drive without 64-bit
  addresses gets the low half of an address, whatever the other half is.

  Main results: `entryLoop_run`, `fillPrdt_filled`, `fillPrdt_furthest`,
  `prdt_right_iff`.
-/
import MierOS.Ahci.BlockRead
import Mathlib.Data.Nat.Bitwise
import Mathlib.Algebra.Group.Nat.Defs

namespace MierOS.Ahci

/-! ## §1. The code. -/

/-- `max_prdt_size`. -/
def maxPrdtSize : Nat := (2 * 4096 - 128) / 16

/-- `Pager::getPhysicalAddress`, for pages in the frames `frame`. -/
def getPhysicalAddress (frame : Nat → BitVec 40) (virt : Nat) : Nat :=
  (frame (virt >>> 12)).toNat <<< 12 ||| (virt &&& 0xFFF)

/-- `PRDT_Entry`. -/
structure PRDTEntry where
  dataBase : BitVec 32
  dataBaseUpper : BitVec 32
  iCount : BitVec 32

/-- `current_addr`, `left_to_read` and `entry_byte_count`. -/
structure Filling where
  currentAddr : Nat
  leftToRead : Nat
  entryByteCount : Nat

/-- What is left of the page, or of the request if that is less. -/
def Filling.offset (s : Filling) : Nat :=
  let offset := 4096 - (s.currentAddr &&& 0xFFF)
  if offset > s.leftToRead then s.leftToRead else offset

/-- The body of the inner loop. -/
def Filling.advance (s : Filling) : Filling where
  currentAddr := (s.currentAddr + s.offset) % 2 ^ 64
  leftToRead := s.leftToRead - s.offset
  entryByteCount := s.entryByteCount + s.offset

/-- The condition of the inner loop; a physical address has 52 bits, so the sum
does not wrap. -/
def Filling.Goes (frame : Nat → BitVec 40) (startPhys : Nat) (s : Filling) : Prop :=
  getPhysicalAddress frame s.currentAddr = startPhys + s.entryByteCount
    ∧ s.entryByteCount < 4096 * 1024 ∧ s.leftToRead > 0

instance (frame : Nat → BitVec 40) (startPhys : Nat) (s : Filling) :
    Decidable (s.Goes frame startPhys) := inferInstanceAs (Decidable (_ ∧ _ ∧ _))

theorem Filling.offset_pos {s : Filling} (h : s.leftToRead > 0) : 0 < s.offset := by
  have hlow : s.currentAddr &&& 0xFFF ≤ 0xFFF := Nat.and_le_right
  unfold Filling.offset
  dsimp only
  split <;> omega

/-- The inner loop. -/
def entryLoop (frame : Nat → BitVec 40) (startPhys : Nat) (s : Filling) : Filling :=
  if s.Goes frame startPhys then entryLoop frame startPhys s.advance else s
termination_by s.leftToRead
decreasing_by
  rename_i h
  have hpos := Filling.offset_pos h.2.2
  have hleft := h.2.2
  show s.leftToRead - s.offset < s.leftToRead
  omega

/-- What is stored in an entry, over what stood there. -/
def PRDTEntry.store (old : PRDTEntry) (drive : DriveInformation) (startPhys count : Nat) :
    PRDTEntry where
  dataBase := BitVec.ofNat 32 startPhys
  dataBaseUpper := if drive.support64 then BitVec.ofNat 32 (startPhys >>> 32) else old.dataBaseUpper
  iCount := BitVec.ofNat 32 count - 1

/-- The outer loop with `room` entries to go: the entries it fills, and
`left_to_read` at its end. -/
def fillPrdt (drive : DriveInformation) (frame : Nat → BitVec 40) (old : Nat → PRDTEntry) :
    Nat → Nat → Nat → Nat → List PRDTEntry × Nat
  | 0, _, _, leftToRead => ([], leftToRead)
  | room + 1, prdtEntry, currentAddr, leftToRead =>
      if leftToRead > 0 then
        let startPhys := getPhysicalAddress frame currentAddr
        let s := entryLoop frame startPhys ⟨currentAddr, leftToRead, 0⟩
        let rest := fillPrdt drive frame old room (prdtEntry + 1) s.currentAddr s.leftToRead
        ((old prdtEntry).store drive startPhys s.entryByteCount :: rest.1, rest.2)
      else ([], leftToRead)

/-- The command `ahci_ata_read` hands to the drive, and what it returns. -/
structure Command where
  prdt : List PRDTEntry
  prdtLength : BitVec 16
  count : BitVec 16
  sectorsRead : Nat

/-- `ahci_ata_read(drive, lba, sector_count, buffer)`, the scatter list; `old` is what
the table held before. -/
def ahciAtaRead (drive : DriveInformation) (frame : Nat → BitVec 40) (old : Nat → PRDTEntry)
    (sectorCount : BitVec 16) (buffer : BitVec 64) : Command :=
  let filled := fillPrdt drive frame old maxPrdtSize 0 buffer.toNat (sectorCount.toNat * 512)
  let bytesRead := sectorCount.toNat * 512 - filled.2
  let sectorsRead := bytesRead >>> 9
  { prdt := filled.1
    prdtLength := BitVec.ofNat 16 filled.1.length
    count := BitVec.ofNat 16 sectorsRead
    sectorsRead := sectorsRead }

/-! ## §2. What the table should describe. -/

/-- What the drive makes of an address in an entry: without 64-bit support it has 32
address bits. -/
def DriveInformation.bus (drive : DriveInformation) (address : Nat) : Nat :=
  if drive.support64 then address else address % 2 ^ 32

/-- The length of an entry. -/
def PRDTEntry.bytes (e : PRDTEntry) : Nat := e.iCount.toNat + 1

/-- The physical range of an entry, as the drive goes through it. -/
def PRDTEntry.range (drive : DriveInformation) (e : PRDTEntry) : List Nat :=
  (List.range e.bytes).map fun i =>
    drive.bus (e.dataBase.toNat + e.dataBaseUpper.toNat * 2 ^ 32 + i)

/-- The physical address of byte `p` of a buffer. -/
def image (frame : Nat → BitVec 40) (buffer p : Nat) : Nat :=
  getPhysicalAddress frame ((buffer + p) % 2 ^ 64)

/-- How many bytes a table describes. -/
def described (es : List PRDTEntry) : Nat := (es.map PRDTEntry.bytes).sum

/-- **The table of a request**: not too long, no entry empty or over 4 MiB, the
front of the buffer in order, all of it unless the table is full, and a report of
what it describes. -/
structure Right (drive : DriveInformation) (frame : Nat → BitVec 40) (sectorCount : BitVec 16)
    (buffer : BitVec 64) (c : Command) : Prop where
  length : c.prdt.length ≤ maxPrdtSize
  sizes : ∀ e ∈ c.prdt, 1 ≤ e.bytes ∧ e.bytes ≤ 4096 * 1024
  ranges : c.prdt.flatMap (PRDTEntry.range drive) =
    (List.range (described c.prdt)).map (image frame buffer.toNat)
  whole : described c.prdt = sectorCount.toNat * 512 ∨ c.prdt.length = maxPrdtSize
  reported : c.sectorsRead = described c.prdt / 512
  registers : c.prdtLength.toNat = c.prdt.length ∧ c.count.toNat = c.sectorsRead

/-- The buffer begins on a page boundary, or the request is no longer than 4 MiB,
or the 1025 pages from its first on do not all follow one another. -/
def EntryFits (frame : Nat → BitVec 40) (sectorCount : BitVec 16) (buffer : BitVec 64) : Prop :=
  buffer.toNat % 4096 = 0 ∨ sectorCount.toNat * 512 ≤ 4096 * 1024
    ∨ ∃ j ≤ 1024, (frame ((buffer.toNat / 4096 + j) % 2 ^ 52)).toNat
        ≠ (frame (buffer.toNat / 4096)).toNat + j

/-- The bytes from `p` to `q` of a buffer follow one another in physical memory, and are
no more than an entry can describe. -/
structure Piece (frame : Nat → BitVec 40) (buffer p q : Nat) : Prop where
  le : p ≤ q
  size : q ≤ p + 4096 * 1024
  follow : ∀ i < q - p, image frame buffer (p + i) = image frame buffer p + i

/-- The bytes from `p` to `q` fit in `room` entries. -/
def FitsIn (frame : Nat → BitVec 40) (buffer : Nat) : Nat → Nat → Nat → Prop
  | 0, p, q => p = q
  | room + 1, p, q => ∃ m, Piece frame buffer p m ∧ FitsIn frame buffer room m q

/-- The drive has 64-bit addresses, or all of the request that fits in a table lies below
4 GiB. -/
def Addressable (drive : DriveInformation) (frame : Nat → BitVec 40) (sectorCount : BitVec 16)
    (buffer : BitVec 64) : Prop :=
  drive.support64 = true ∨ ∀ n ≤ sectorCount.toNat * 512,
    FitsIn frame buffer.toNat maxPrdtSize 0 n → ∀ i < n, image frame buffer.toNat i < 2 ^ 32

/-! ## §3. Addresses. -/

theorem and_fff (a : Nat) : a &&& 0xFFF = a % 4096 := by
  rw [show 0xFFF = 2 ^ 12 - 1 from rfl, Nat.and_two_pow_sub_one_eq_mod]

theorem getPhysicalAddress_eq (frame : Nat → BitVec 40) (virt : Nat) :
    getPhysicalAddress frame virt = (frame (virt / 4096)).toNat * 4096 + virt % 4096 := by
  unfold getPhysicalAddress
  rw [and_fff, Nat.shiftRight_eq_div_pow,
    ← Nat.shiftLeft_add_eq_or_of_lt (Nat.mod_lt _ (by decide)), Nat.shiftLeft_eq]

/-- Byte `r` of page `j` of a buffer. -/
theorem image_eq (frame : Nat → BitVec 40) {buffer p j r : Nat}
    (h : buffer % 4096 + p = 4096 * j + r) (hr : r < 4096) :
    image frame buffer p = (frame ((buffer / 4096 + j) % 2 ^ 52)).toNat * 4096 + r := by
  have hpage : (buffer + p) % 2 ^ 64 / 4096 = (buffer / 4096 + j) % 2 ^ 52 := by omega
  have hoff : (buffer + p) % 2 ^ 64 % 4096 = r := by omega
  unfold image
  rw [getPhysicalAddress_eq, hpage, hoff]

/-- Within a page physical addresses go up with virtual ones. -/
theorem image_add (frame : Nat → BitVec 40) {buffer p i : Nat}
    (h : (buffer + p) % 4096 + i < 4096) :
    image frame buffer (p + i) = image frame buffer p + i := by
  rw [image_eq frame (j := (buffer % 4096 + p) / 4096) (r := (buffer + p) % 4096 + i) (by omega) h,
    image_eq frame (j := (buffer % 4096 + p) / 4096) (r := (buffer + p) % 4096) (by omega)
      (by omega),
    Nat.add_assoc]

theorem image_zero (frame : Nat → BitVec 40) {buffer : Nat} (hword : buffer < 2 ^ 64) :
    image frame buffer 0 = (frame (buffer / 4096)).toNat * 4096 + buffer % 4096 := by
  unfold image
  rw [Nat.add_zero, Nat.mod_eq_of_lt hword, getPhysicalAddress_eq]

theorem image_lt (frame : Nat → BitVec 40) (buffer p : Nat) : image frame buffer p < 2 ^ 52 := by
  have hframe := (frame ((buffer + p) % 2 ^ 64 / 4096)).isLt
  unfold image
  rw [getPhysicalAddress_eq]
  omega

/-- The drive goes where the address says if it has the bits for it. -/
theorem bus_eq_iff (drive : DriveInformation) (address : Nat) :
    drive.bus address = address ↔ drive.support64 = true ∨ address < 2 ^ 32 := by
  unfold DriveInformation.bus
  by_cases hwide : drive.support64 = true
  · simp [hwide]
  · rw [if_neg hwide, or_iff_right hwide]
    exact Nat.mod_eq_iff_lt (by decide)

/-! ## §4. One entry. -/

section Entry

variable {frame : Nat → BitVec 40} {buffer total p : Nat} {s : Filling}

/-- The entry that begins at byte `p` of a buffer of `total` bytes, as far as it has
come: it stands at the end of a page or of the request. -/
structure Entry (frame : Nat → BitVec 40) (buffer total p : Nat) (s : Filling) : Prop where
  addr : s.currentAddr = (buffer + (p + s.entryByteCount)) % 2 ^ 64
  left : s.leftToRead + (p + s.entryByteCount) = total
  covers : ∀ i < s.entryByteCount, image frame buffer (p + i) = image frame buffer p + i
  aligned : s.entryByteCount = 0 ∨ s.leftToRead = 0
    ∨ (buffer + (p + s.entryByteCount)) % 4096 = 0
  bounded : (buffer + p) % 4096 = 0 → s.entryByteCount ≤ 4096 * 1024

/-- The step is up to the end of the page, or of the request. -/
theorem Entry.offset (h : Entry frame buffer total p s) :
    s.offset = min (4096 - (buffer + (p + s.entryByteCount)) % 4096) s.leftToRead := by
  have haddr := h.addr
  unfold Filling.offset
  rw [and_fff]
  dsimp only
  split <;> omega

theorem Entry.advance (h : Entry frame buffer total p s)
    (hgoes : s.Goes frame (image frame buffer p)) : Entry frame buffer total p s.advance := by
  obtain ⟨hphys, hsize, hleft⟩ := hgoes
  have hoff := h.offset
  have haddr := h.addr
  have hrest := h.left
  have hstart : image frame buffer (p + s.entryByteCount)
      = image frame buffer p + s.entryByteCount := by
    rw [← hphys, haddr]
    rfl
  refine ⟨?_, ?_, ?_, ?_, ?_⟩
  · show (s.currentAddr + s.offset) % 2 ^ 64
      = (buffer + (p + (s.entryByteCount + s.offset))) % 2 ^ 64
    rw [haddr, Nat.mod_add_mod]
    congr 1
    omega
  · show s.leftToRead - s.offset + (p + (s.entryByteCount + s.offset)) = total
    omega
  · intro i hi
    have hi' : i < s.entryByteCount + s.offset := hi
    by_cases hold : i < s.entryByteCount
    · exact h.covers i hold
    · -- a byte of the page just taken in
      have hin : (buffer + (p + s.entryByteCount)) % 4096 + (i - s.entryByteCount) < 4096 := by
        omega
      have himage := image_add frame hin
      rw [hstart, show p + s.entryByteCount + (i - s.entryByteCount) = p + i by omega] at himage
      omega
  · show s.entryByteCount + s.offset = 0 ∨ s.leftToRead - s.offset = 0
      ∨ (buffer + (p + (s.entryByteCount + s.offset))) % 4096 = 0
    omega
  · intro hpage
    have hbound := h.bounded hpage
    have haligned := h.aligned
    show s.entryByteCount + s.offset ≤ 4096 * 1024
    omega

/-- **The entry a loop ends with**: as it should be, no smaller than before, and it
does not go on. -/
theorem entryLoop_run (h : Entry frame buffer total p s) :
    Entry frame buffer total p (entryLoop frame (image frame buffer p) s)
      ∧ s.entryByteCount ≤ (entryLoop frame (image frame buffer p) s).entryByteCount
      ∧ ¬ (entryLoop frame (image frame buffer p) s).Goes frame (image frame buffer p) := by
  induction s using entryLoop.induct frame (image frame buffer p) with
  | case1 s hgoes ih =>
      rw [entryLoop, if_pos hgoes]
      obtain ⟨hentry, hle, hstop⟩ := ih (h.advance hgoes)
      exact ⟨hentry, Nat.le_trans (Nat.le_add_right _ _) hle, hstop⟩
  | case2 s hstop =>
      rw [entryLoop, if_neg hstop]
      exact ⟨h, Nat.le_refl _, hstop⟩

theorem entry_init (hp : p ≤ total) :
    Entry frame buffer total p ⟨(buffer + p) % 2 ^ 64, total - p, 0⟩ where
  addr := rfl
  left := by
    show total - p + (p + 0) = total
    omega
  covers := fun i hi => absurd hi (Nat.not_lt_zero i)
  aligned := Or.inl rfl
  bounded := fun _ => Nat.zero_le _

/-- The entry that is filled from byte `p` on. -/
def entryFrom (frame : Nat → BitVec 40) (buffer total p : Nat) : Filling :=
  entryLoop frame (image frame buffer p) ⟨(buffer + p) % 2 ^ 64, total - p, 0⟩

theorem entryFrom_entry (frame : Nat → BitVec 40) (buffer : Nat) (hp : p ≤ total) :
    Entry frame buffer total p (entryFrom frame buffer total p) :=
  (entryLoop_run (entry_init hp)).1

theorem entryFrom_stops (frame : Nat → BitVec 40) (buffer : Nat) (hp : p ≤ total) :
    ¬ (entryFrom frame buffer total p).Goes frame (image frame buffer p) :=
  (entryLoop_run (entry_init hp)).2.2

theorem entryFrom_pos (frame : Nat → BitVec 40) (buffer : Nat) (hp : p < total) :
    0 < (entryFrom frame buffer total p).entryByteCount := by
  have hgoes : Filling.Goes frame (image frame buffer p) ⟨(buffer + p) % 2 ^ 64, total - p, 0⟩ :=
    ⟨rfl, by show 0 < 4096 * 1024; omega, by show total - p > 0; omega⟩
  unfold entryFrom
  rw [entryLoop, if_pos hgoes]
  have hrun := entryLoop_run ((entry_init (Nat.le_of_lt hp)).advance hgoes)
  refine Nat.lt_of_lt_of_le ?_ hrun.2.1
  show 0 < 0 + Filling.offset _
  rw [Nat.zero_add]
  exact Filling.offset_pos hgoes.2.2

end Entry

/-! ## §5. The table. -/

/-- What an entry holds of where it starts and how long it is. -/
theorem bytes_store (old : PRDTEntry) (drive : DriveInformation) (start : Nat) {count : Nat}
    (hpos : 0 < count) (hlt : count < 2 ^ 32) : (old.store drive start count).bytes = count := by
  have hone : (1 : BitVec 32) ≤ BitVec.ofNat 32 count := by
    rw [BitVec.le_def, BitVec.toNat_ofNat, Nat.mod_eq_of_lt hlt]
    exact hpos
  show (BitVec.ofNat 32 count - 1).toNat + 1 = count
  rw [BitVec.toNat_sub_of_le hone, BitVec.toNat_ofNat, Nat.mod_eq_of_lt hlt]
  show count - 1 + 1 = count
  omega

theorem range_store (old : PRDTEntry) (drive : DriveInformation) {start count : Nat}
    (hstart : start < 2 ^ 52) (hpos : 0 < count) (hlt : count < 2 ^ 32) :
    (old.store drive start count).range drive =
      (List.range count).map fun i => drive.bus (start + i) := by
  unfold PRDTEntry.range
  rw [bytes_store old drive start hpos hlt]
  apply List.map_congr_left
  intro i _
  show drive.bus ((BitVec.ofNat 32 start).toNat + BitVec.toNat (if _ then _ else _) * 2 ^ 32 + i)
    = drive.bus (start + i)
  unfold DriveInformation.bus
  by_cases hwide : drive.support64 = true
  · rw [if_pos hwide, if_pos hwide, if_pos hwide, BitVec.toNat_ofNat, BitVec.toNat_ofNat,
      Nat.shiftRight_eq_div_pow]
    omega
  · rw [if_neg hwide, if_neg hwide, if_neg hwide, BitVec.toNat_ofNat]
    omega

/-- The table that is filled from byte `p` of a buffer of `total` bytes on. -/
structure Filled (drive : DriveInformation) (frame : Nat → BitVec 40) (buffer total p room : Nat)
    (r : List PRDTEntry × Nat) : Prop where
  length : r.1.length ≤ room
  ranges : r.1.flatMap (PRDTEntry.range drive) =
    (List.range (described r.1)).map fun i => drive.bus (image frame buffer (p + i))
  left : r.2 + (p + described r.1) = total
  full : r.2 = 0 ∨ r.1.length = room
  sizes : (buffer + p) % 4096 = 0 → ∀ e ∈ r.1, e.bytes ≤ 4096 * 1024

theorem described_cons (e : PRDTEntry) (es : List PRDTEntry) :
    described (e :: es) = e.bytes + described es := rfl

/-- The front of a buffer, then the rest. -/
theorem map_range_add (f : Nat → Nat) (m n : Nat) :
    (List.range (m + n)).map f = (List.range m).map f ++ (List.range n).map fun i => f (m + i) := by
  rw [List.range_add, List.map_append, List.map_map]
  rfl

theorem fitsIn_refl (frame : Nat → BitVec 40) (buffer room p : Nat) :
    FitsIn frame buffer room p p := by
  induction room with
  | zero => rfl
  | succ room ih =>
      refine ⟨p, ⟨Nat.le_refl p, Nat.le_add_right _ _, fun i hi => ?_⟩, ih⟩
      rw [Nat.sub_self] at hi
      exact absurd hi (Nat.not_lt_zero i)

theorem FitsIn.le {frame : Nat → BitVec 40} {buffer room : Nat} : ∀ {p q},
    FitsIn frame buffer room p q → p ≤ q := by
  induction room with
  | zero => exact fun h => Nat.le_of_eq h
  | succ room ih => exact fun ⟨_, hpiece, hrest⟩ => Nat.le_trans hpiece.le (ih hrest)

section Table

variable (drive : DriveInformation) (frame : Nat → BitVec 40) (old : Nat → PRDTEntry)
  {buffer total p : Nat}

/-- The entry stored for byte `p` and what follows it. -/
def entryAt (buffer total p index : Nat) : PRDTEntry :=
  (old index).store drive (image frame buffer p) (entryFrom frame buffer total p).entryByteCount

/-- A round of the outer loop: one entry, and the rest of the table from its end on. -/
theorem fillPrdt_succ (buffer : Nat) (hp : p < total) (room index : Nat) :
    fillPrdt drive frame old (room + 1) index ((buffer + p) % 2 ^ 64) (total - p) =
      let q := p + (entryFrom frame buffer total p).entryByteCount
      let rest := fillPrdt drive frame old room (index + 1) ((buffer + q) % 2 ^ 64) (total - q)
      (entryAt drive frame old buffer total p index :: rest.1, rest.2) := by
  have hentry := entryFrom_entry frame buffer (Nat.le_of_lt hp)
  have hleft : total - (p + (entryFrom frame buffer total p).entryByteCount)
      = (entryFrom frame buffer total p).leftToRead := by
    have hrest := hentry.left
    omega
  rw [fillPrdt, if_pos (by omega)]
  dsimp only
  rw [hleft, ← hentry.addr]
  rfl

variable (htotal : total < 2 ^ 32)
include htotal

theorem bytes_entryAt (buffer : Nat) (hp : p < total) (index : Nat) :
    (entryAt drive frame old buffer total p index).bytes
      = (entryFrom frame buffer total p).entryByteCount := by
  have hrest := (entryFrom_entry frame buffer (Nat.le_of_lt hp)).left
  exact bytes_store (old index) drive _ (entryFrom_pos frame buffer hp) (by omega)

/-- An entry describes the bytes it has taken in. -/
theorem range_entryAt (hp : p < total) (index : Nat) :
    (entryAt drive frame old buffer total p index).range drive =
      (List.range (entryFrom frame buffer total p).entryByteCount).map
        fun i => drive.bus (image frame buffer (p + i)) := by
  have hentry := entryFrom_entry frame buffer (Nat.le_of_lt hp)
  have hrest := hentry.left
  unfold entryAt
  rw [range_store (old index) drive (image_lt frame buffer p) (entryFrom_pos frame buffer hp)
    (by omega)]
  apply List.map_congr_left
  intro i hi
  rw [hentry.covers i (List.mem_range.mp hi)]

/-- An entry that begins on a page boundary stays within 4 MiB. -/
theorem bytes_entryAt_le (hp : p < total) (hpage : (buffer + p) % 4096 = 0) (index : Nat) :
    (entryAt drive frame old buffer total p index).bytes ≤ 4096 * 1024 := by
  rw [bytes_entryAt drive frame old htotal buffer hp]
  exact (entryFrom_entry frame buffer (Nat.le_of_lt hp)).bounded hpage

omit htotal in
variable {drive frame} in
/-- Where an entry ends, the rest begins on a page boundary or is empty. -/
theorem Filled.rest_sizes {room : Nat} {r : List PRDTEntry × Nat} (hp : p < total)
    (h : Filled drive frame buffer total
      (p + (entryFrom frame buffer total p).entryByteCount) room r) :
    ∀ e ∈ r.1, e.bytes ≤ 4096 * 1024 := by
  have hentry := entryFrom_entry frame buffer (Nat.le_of_lt hp)
  have hpos := entryFrom_pos frame buffer hp
  rcases hentry.aligned with hzero | hdone | hpage
  · omega
  · -- nothing is left, so the rest has no bytes
    have hrest := hentry.left
    have hnone := h.left
    cases hes : r.1 with
    | nil => exact fun e he => nomatch he
    | cons e es =>
        have hone : 1 ≤ e.bytes := Nat.succ_le_succ (Nat.zero_le _)
        rw [hes, described_cons] at hnone
        omega
  · exact h.sizes hpage

/-- **The table**, entry by entry. -/
theorem fillPrdt_filled (buffer room : Nat) : ∀ p index, p ≤ total →
    Filled drive frame buffer total p room
      (fillPrdt drive frame old room index ((buffer + p) % 2 ^ 64) (total - p)) := by
  induction room with
  | zero =>
      intro p index hp
      exact ⟨Nat.le_refl 0, rfl, Nat.sub_add_cancel hp, Or.inr rfl, fun _ e he => nomatch he⟩
  | succ room ih =>
      intro p index hle
      by_cases hp : p < total
      · have hrest := (entryFrom_entry frame buffer hle).left
        have hnext := ih (p + (entryFrom frame buffer total p).entryByteCount) (index + 1)
          (by omega)
        have hbytes := bytes_entryAt drive frame old htotal buffer hp index
        rw [fillPrdt_succ drive frame old buffer hp]
        dsimp only
        refine ⟨Nat.succ_le_succ hnext.length, ?_, ?_, ?_, ?_⟩
        · rw [described_cons, hbytes, map_range_add, List.flatMap_cons, hnext.ranges,
            range_entryAt drive frame old htotal hp]
          simp only [Nat.add_assoc]
        · have hleft := hnext.left
          rw [described_cons, hbytes]
          omega
        · exact hnext.full.imp_right (congrArg Nat.succ)
        · intro hpage e he
          rcases List.mem_cons.mp he with rfl | hmem
          · exact bytes_entryAt_le drive frame old htotal hp hpage index
          · exact hnext.rest_sizes hp e hmem
      · rw [fillPrdt, if_neg (by omega)]
        refine ⟨Nat.zero_le _, rfl, Nat.sub_add_cancel hle, Or.inl (by omega), ?_⟩
        exact fun _ e he => nomatch he

/-- What the table describes fits in as many entries, if none is over 4 MiB. -/
theorem fillPrdt_fitsIn (buffer room : Nat) : ∀ p index, p ≤ total →
    (∀ e ∈ (fillPrdt drive frame old room index ((buffer + p) % 2 ^ 64) (total - p)).1,
      e.bytes ≤ 4096 * 1024) →
    FitsIn frame buffer room p (p + described
      (fillPrdt drive frame old room index ((buffer + p) % 2 ^ 64) (total - p)).1) := by
  induction room with
  | zero => exact fun p index hp _ => rfl
  | succ room ih =>
      intro p index hle
      by_cases hp : p < total
      · have hentry := entryFrom_entry frame buffer hle
        have hrest := hentry.left
        have hbytes := bytes_entryAt drive frame old htotal buffer hp index
        rw [fillPrdt_succ drive frame old buffer hp]
        dsimp only
        intro hsizes
        obtain ⟨hsize, hsizes⟩ := List.forall_mem_cons.mp hsizes
        rw [hbytes] at hsize
        refine ⟨p + (entryFrom frame buffer total p).entryByteCount,
          ⟨Nat.le_add_right _ _, Nat.add_le_add_left hsize p, ?_⟩, ?_⟩
        · rw [Nat.add_sub_cancel_left]
          exact hentry.covers
        · rw [described_cons, hbytes, ← Nat.add_assoc]
          exact ih _ _ (by omega) hsizes
      · rw [fillPrdt, if_neg (by omega)]
        exact fun _ => fitsIn_refl frame buffer (room + 1) p

omit htotal in
/-- **An entry goes as far as any piece** that begins no later. -/
theorem entryFrom_furthest {p' q : Nat} (hp : p < total) (hle : p' ≤ p) (hq : q ≤ total)
    (hpiece : Piece frame buffer p' q) :
    q ≤ p + (entryFrom frame buffer total p).entryByteCount := by
  by_contra hover
  have hentry := entryFrom_entry frame buffer (Nat.le_of_lt hp)
  have hstops := entryFrom_stops frame buffer (Nat.le_of_lt hp)
  have hleft := hentry.left
  have haddr := hentry.addr
  generalize entryFrom frame buffer total p = s at *
  -- it would have gone on: the piece holds both its first byte and the one behind its last
  have hfirst := hpiece.follow (p - p') (by omega)
  have hnext := hpiece.follow (p + s.entryByteCount - p') (by omega)
  rw [Nat.add_sub_cancel' hle] at hfirst
  rw [Nat.add_sub_cancel' (Nat.le_trans hle (Nat.le_add_right _ _))] at hnext
  have hsize := hpiece.size
  refine hstops ⟨?_, by omega, by omega⟩
  rw [haddr]
  show image frame buffer (p + s.entryByteCount) = _
  omega

/-- **No table of this size goes further** from a place that is no later. -/
theorem fillPrdt_furthest (buffer room : Nat) : ∀ {p p' n} index, p' ≤ p → p ≤ total →
    n ≤ total → FitsIn frame buffer room p' n → n ≤ p + described
      (fillPrdt drive frame old room index ((buffer + p) % 2 ^ 64) (total - p)).1 := by
  induction room with
  | zero =>
      rintro p p' n index hle - - rfl
      exact Nat.le_trans hle (Nat.le_add_right _ _)
  | succ room ih =>
      rintro p p' n index hle hp hn ⟨q, hpiece, hrest⟩
      rcases Nat.lt_or_eq_of_le hp with hlt | rfl
      · have hq : q ≤ n := hrest.le
        have hreach := entryFrom_furthest frame hlt hle (Nat.le_trans hq hn) hpiece
        have hleft := (entryFrom_entry frame buffer hp).left
        have hfurther := ih (index + 1) hreach (by omega) hn hrest
        rw [fillPrdt_succ drive frame old buffer hlt]
        dsimp only
        rw [described_cons, bytes_entryAt drive frame old htotal buffer hlt, ← Nat.add_assoc]
        exact hfurther
      · exact Nat.le_trans hn (Nat.le_add_right _ _)

end Table

/-- From the front of the buffer the drive goes through the image itself, if it has the
bits for all that is described. -/
theorem Filled.ranges_iff {drive : DriveInformation} {frame : Nat → BitVec 40}
    {buffer total room : Nat} {r : List PRDTEntry × Nat}
    (h : Filled drive frame buffer total 0 room r) :
    r.1.flatMap (PRDTEntry.range drive)
        = (List.range (described r.1)).map (image frame buffer)
      ↔ drive.support64 = true ∨ ∀ i < described r.1, image frame buffer i < 2 ^ 32 := by
  rw [h.ranges, List.map_inj_left]
  by_cases hwide : drive.support64 = true <;> simp [bus_eq_iff, hwide]

/-! ## §6. The first entry. -/

section First

variable {frame : Nat → BitVec 40} {buffer total : Nat}

/-- An entry over 4 MiB has taken in 1025 pages that follow one another. -/
theorem first_contiguous (hword : buffer < 2 ^ 64)
    (h : 4096 * 1024 < (entryFrom frame buffer total 0).entryByteCount) {j : Nat} (hj : j ≤ 1024) :
    (frame ((buffer / 4096 + j) % 2 ^ 52)).toNat = (frame (buffer / 4096)).toNat + j := by
  have hentry := entryFrom_entry frame buffer (Nat.zero_le total)
  by_cases hzero : j = 0
  · rw [hzero, Nat.add_zero, Nat.add_zero, Nat.mod_eq_of_lt (by omega)]
  · -- the first byte of page `j` is in the entry unless the buffer begins on a page boundary
    by_cases hpage : buffer % 4096 = 0
    · have hbound := hentry.bounded hpage
      omega
    · have hcover := hentry.covers (4096 * j - buffer % 4096) (by omega)
      rw [Nat.zero_add, image_eq frame (j := j) (r := 0) (by omega) (by omega),
        image_zero frame hword] at hcover
      omega

/-- An entry within 4 MiB, not from a page boundary on, of a longer request: it has
met a page that does not follow. -/
theorem first_broken (hword : buffer < 2 ^ 64) (hpage : buffer % 4096 ≠ 0)
    (htotal : 4096 * 1024 < total)
    (h : (entryFrom frame buffer total 0).entryByteCount ≤ 4096 * 1024) :
    ∃ j ≤ 1024, (frame ((buffer / 4096 + j) % 2 ^ 52)).toNat
      ≠ (frame (buffer / 4096)).toNat + j := by
  have hentry := entryFrom_entry frame buffer (Nat.zero_le total)
  have hstops := entryFrom_stops frame buffer (Nat.zero_le total)
  have hpos := entryFrom_pos frame buffer (show 0 < total by omega)
  have hleft := hentry.left
  have haddr := hentry.addr
  have haligned := hentry.aligned
  generalize entryFrom frame buffer total 0 = s at *
  -- it ends on a page boundary, with bytes left and below 4 MiB: the addresses part
  have hend : (buffer + s.entryByteCount) % 4096 = 0 := by
    rcases haligned with hzero | hdone | hboundary
    · omega
    · omega
    · rwa [Nat.zero_add] at hboundary
  refine ⟨(buffer % 4096 + s.entryByteCount) / 4096, by omega, fun hfollows => hstops ⟨?_, ?_, ?_⟩⟩
  · have himage : getPhysicalAddress frame s.currentAddr = image frame buffer s.entryByteCount := by
      rw [haddr, Nat.zero_add]
      rfl
    rw [himage, image_zero frame hword, image_eq frame (r := 0)
      (j := (buffer % 4096 + s.entryByteCount) / 4096) (by omega) (by omega), hfollows]
    omega
  · omega
  · omega

/-- **The first entry stays within 4 MiB** in three cases and no others. -/
theorem first_le_iff (hword : buffer < 2 ^ 64) :
    (entryFrom frame buffer total 0).entryByteCount ≤ 4096 * 1024 ↔
      buffer % 4096 = 0 ∨ total ≤ 4096 * 1024
        ∨ ∃ j ≤ 1024, (frame ((buffer / 4096 + j) % 2 ^ 52)).toNat
          ≠ (frame (buffer / 4096)).toNat + j := by
  have hentry := entryFrom_entry frame buffer (Nat.zero_le total)
  constructor
  · intro hle
    by_cases hpage : buffer % 4096 = 0
    · exact Or.inl hpage
    · by_cases htotal : total ≤ 4096 * 1024
      · exact Or.inr (Or.inl htotal)
      · exact Or.inr (Or.inr (first_broken hword hpage (Nat.lt_of_not_le htotal) hle))
  · intro h
    rcases h with hpage | htotal | ⟨j, hj, hbreak⟩
    · exact hentry.bounded hpage
    · have hleft := hentry.left
      omega
    · by_contra hover
      exact hbreak (first_contiguous hword (Nat.lt_of_not_le hover) hj)

end First

/-! ## §7. The command. -/

section Command

variable (drive : DriveInformation) (frame : Nat → BitVec 40) (old : Nat → PRDTEntry)
  (sectorCount : BitVec 16) (buffer : BitVec 64)

/-- The bytes of a request, in 32 bits. -/
theorem requested_lt : sectorCount.toNat * 512 < 2 ^ 32 := by
  have hcount := sectorCount.isLt
  omega

theorem ahciAtaRead_filled :
    Filled drive frame buffer.toNat (sectorCount.toNat * 512) 0 maxPrdtSize
      (fillPrdt drive frame old maxPrdtSize 0 buffer.toNat (sectorCount.toNat * 512)) := by
  have h := fillPrdt_filled drive frame old (requested_lt sectorCount) buffer.toNat maxPrdtSize
    0 0 (Nat.zero_le _)
  rwa [Nat.add_zero, Nat.sub_zero, Nat.mod_eq_of_lt buffer.isLt] at h

/-- The first entry of a command that asks for something. -/
theorem ahciAtaRead_cons (hpos : 1 ≤ sectorCount.toNat) :
    ∃ rest, (ahciAtaRead drive frame old sectorCount buffer).prdt =
        entryAt drive frame old buffer.toNat (sectorCount.toNat * 512) 0 0 :: rest
      ∧ ∀ e ∈ rest, e.bytes ≤ 4096 * 1024 := by
  have hp : 0 < sectorCount.toNat * 512 := by omega
  have hsucc := fillPrdt_succ drive frame old buffer.toNat hp 503 0
  simp only [Nat.add_zero, Nat.sub_zero, Nat.mod_eq_of_lt buffer.isLt] at hsucc
  have hrest := (entryFrom_entry frame buffer.toNat (Nat.zero_le
    (sectorCount.toNat * 512))).left
  refine ⟨_, congrArg Prod.fst hsucc, ?_⟩
  exact (fillPrdt_filled drive frame old (requested_lt sectorCount) buffer.toNat 503 _ 1
    (by omega)).rest_sizes hp

/-- **All but the sizes and the address bits** is as it should be in every command. -/
theorem right_iff_sizes :
    Right drive frame sectorCount buffer (ahciAtaRead drive frame old sectorCount buffer) ↔
      (∀ e ∈ (ahciAtaRead drive frame old sectorCount buffer).prdt, e.bytes ≤ 4096 * 1024)
        ∧ (drive.support64 = true
          ∨ ∀ i < described (ahciAtaRead drive frame old sectorCount buffer).prdt,
            image frame buffer.toNat i < 2 ^ 32) := by
  have hfilled := ahciAtaRead_filled drive frame old sectorCount buffer
  have hcount := sectorCount.isLt
  have hleft := hfilled.left
  have hlength : (ahciAtaRead drive frame old sectorCount buffer).prdt.length ≤ maxPrdtSize :=
    hfilled.length
  have hread : (ahciAtaRead drive frame old sectorCount buffer).sectorsRead =
      described (ahciAtaRead drive frame old sectorCount buffer).prdt / 512 := by
    show (sectorCount.toNat * 512 - _) >>> 9 = described (fillPrdt _ _ _ _ _ _ _).1 / 512
    rw [Nat.shiftRight_eq_div_pow]
    congr 1
    omega
  have hdescribed : described (ahciAtaRead drive frame old sectorCount buffer).prdt
      ≤ sectorCount.toNat * 512 := by
    show described (fillPrdt _ _ _ _ _ _ _).1 ≤ _
    omega
  constructor
  · exact fun h => ⟨fun e he => (h.sizes e he).2, hfilled.ranges_iff.mp h.ranges⟩
  · rintro ⟨hsizes, haddressable⟩
    refine ⟨hlength, fun e he => ⟨Nat.succ_le_succ (Nat.zero_le _), hsizes e he⟩,
      hfilled.ranges_iff.mpr haddressable, ?_, hread, ?_⟩
    · rcases hfilled.full with hzero | hroom
      · left
        show described (fillPrdt _ _ _ _ _ _ _).1 = _
        omega
      · exact Or.inr hroom
    · have hmax : maxPrdtSize = 504 := rfl
      constructor
      · show (BitVec.ofNat 16
          (ahciAtaRead drive frame old sectorCount buffer).prdt.length).toNat = _
        rw [BitVec.toNat_ofNat, Nat.mod_eq_of_lt (by omega)]
      · show (BitVec.ofNat 16
          (ahciAtaRead drive frame old sectorCount buffer).sectorsRead).toNat = _
        rw [BitVec.toNat_ofNat, Nat.mod_eq_of_lt (by omega)]

/-- **The sizes** depend on the first entry alone. -/
theorem sizes_iff (hpos : 1 ≤ sectorCount.toNat) :
    (∀ e ∈ (ahciAtaRead drive frame old sectorCount buffer).prdt, e.bytes ≤ 4096 * 1024) ↔
      EntryFits frame sectorCount buffer := by
  obtain ⟨rest, hprdt, hrest⟩ := ahciAtaRead_cons drive frame old sectorCount buffer hpos
  have hp : 0 < sectorCount.toNat * 512 := by omega
  have hfirst := bytes_entryAt drive frame old (requested_lt sectorCount) buffer.toNat hp 0
  have hfits : EntryFits frame sectorCount buffer ↔
      (entryFrom frame buffer.toNat (sectorCount.toNat * 512) 0).entryByteCount ≤ 4096 * 1024 :=
    (first_le_iff buffer.isLt).symm
  rw [hprdt, hfits, ← hfirst, List.forall_mem_cons]
  exact and_iff_left hrest

/-- **The front a table describes** is the longest that fits in one. -/
theorem addressable_iff
    (hsizes : ∀ e ∈ (ahciAtaRead drive frame old sectorCount buffer).prdt,
      e.bytes ≤ 4096 * 1024) :
    (drive.support64 = true
        ∨ ∀ i < described (ahciAtaRead drive frame old sectorCount buffer).prdt,
          image frame buffer.toNat i < 2 ^ 32) ↔
      Addressable drive frame sectorCount buffer := by
  have htotal := requested_lt sectorCount
  have hleft := (ahciAtaRead_filled drive frame old sectorCount buffer).left
  have hfits := fillPrdt_fitsIn drive frame old htotal buffer.toNat maxPrdtSize 0 0 (Nat.zero_le _)
  have hfurthest : ∀ {n}, n ≤ sectorCount.toNat * 512 →
      FitsIn frame buffer.toNat maxPrdtSize 0 n → _ := fun hn =>
    fillPrdt_furthest drive frame old htotal buffer.toNat maxPrdtSize 0 (Nat.le_refl 0)
      (Nat.zero_le _) hn
  simp only [Nat.add_zero, Nat.sub_zero, Nat.zero_add, Nat.mod_eq_of_lt buffer.isLt]
    at hfits hfurthest hleft
  refine or_congr_right ⟨fun h n hn hfront i hi => ?_, fun h => ?_⟩
  · exact h i (Nat.lt_of_lt_of_le hi (hfurthest hn hfront))
  · refine h _ ?_ (hfits hsizes)
    show described (fillPrdt _ _ _ _ _ _ _).1 ≤ _
    omega

end Command

/-- **The scatter list is right** exactly when its first entry fits and the drive can
address what fits in a table. -/
theorem prdt_right_iff (drive : DriveInformation) (frame : Nat → BitVec 40)
    (old : Nat → PRDTEntry) (sectorCount : BitVec 16) (hpos : 1 ≤ sectorCount.toNat)
    (buffer : BitVec 64) :
    Right drive frame sectorCount buffer (ahciAtaRead drive frame old sectorCount buffer) ↔
      EntryFits frame sectorCount buffer ∧ Addressable drive frame sectorCount buffer := by
  rw [right_iff_sizes, ← sizes_iff drive frame old sectorCount buffer hpos]
  exact and_congr_right (addressable_iff drive frame old sectorCount buffer)

/-- A drive with 64-bit addresses, an empty table, and memory mapped one to one. -/
def wideDrive : DriveInformation := { atapi := false, support64 := true }
def emptyEntry : PRDTEntry := { dataBase := 0, dataBaseUpper := 0, iCount := 0 }
def identityFrame (page : Nat) : BitVec 40 := BitVec.ofNat 40 page

/-- Sixteen sectors into a buffer off its page boundary. -/
theorem prdt_right_iff_short :
    Right wideDrive identityFrame 16 0x100200
        (ahciAtaRead wideDrive identityFrame (fun _ => emptyEntry) 16 0x100200) ↔
      EntryFits identityFrame 16 0x100200 ∧ Addressable wideDrive identityFrame 16 0x100200 :=
  prdt_right_iff wideDrive identityFrame (fun _ => emptyEntry) 16 (by decide) 0x100200

/-- 8193 sectors into the same buffer: one entry for all of it. -/
theorem prdt_entry_over_limit :
    ¬ Right wideDrive identityFrame 8193 0x100200
        (ahciAtaRead wideDrive identityFrame (fun _ => emptyEntry) 8193 0x100200) := by
  intro h
  have hfits : EntryFits identityFrame 8193 0x100200 :=
    (sizes_iff wideDrive identityFrame (fun _ => emptyEntry) 8193 0x100200 (by decide)).mp
      fun e he => (h.sizes e he).2
  rcases hfits with hpage | hshort | ⟨j, hj, hbreak⟩
  · exact absurd hpage (by decide)
  · exact absurd hshort (by decide)
  · -- frame `j` pages further on is `j` further on
    have hbuffer : (0x100200 : BitVec 64).toNat = 0x100200 := rfl
    refine hbreak ?_
    rw [hbuffer]
    unfold identityFrame
    rw [BitVec.toNat_ofNat, BitVec.toNat_ofNat]
    omega

end MierOS.Ahci
