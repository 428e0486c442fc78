/-
  MierOS.Partition.Gpt
  **THE GUID PARTITION TABLE**: `parse_partitions` of `parse.hpp` over the
  structures of `gpt.h`.

  The table is read in whole sectors of 512 bytes, with `512 / entry_size`
  entries to a sector: none for entries larger than a sector, and more than the
  header announces in a last sector that is not full.

  Main results: `readTable_eq`, `parse_partitions_iff`.
-/
import Mathlib.Algebra.Group.Nat.Defs
import Mathlib.Data.List.Basic
import MierOS.Util.Crc

namespace MierOS.Gpt

open Lib.Crc Util.Crc

/-! ## §1. Bytes on the disk. -/

/-- Sectors by their number, bytes by their place in the sector. -/
abbrev Disk := Nat → Nat → BitVec 8

/-- A little-endian integer of `n` bytes at `off`. -/
def le (b : Nat → BitVec 8) : Nat → Nat → Nat
  | _, 0 => 0
  | off, n + 1 => (b off).toNat + 256 * le b (off + 1) n

/-- `uuid_t::bytes`. -/
abbrev Uuid := List (BitVec 8)

/-- `uuid_t(part1, part2, part3, part4, part5)`. -/
def Uuid.ofParts (part1 : BitVec 32) (part2 part3 part4 : BitVec 16) (part5 : BitVec 64) : Uuid :=
  [(part1 >>> 24).setWidth 8, (part1 >>> 16).setWidth 8, (part1 >>> 8).setWidth 8,
    part1.setWidth 8, (part2 >>> 8).setWidth 8, part2.setWidth 8, (part3 >>> 8).setWidth 8,
    part3.setWidth 8, (part4 >>> 8).setWidth 8, part4.setWidth 8, (part5 >>> 40).setWidth 8,
    (part5 >>> 32).setWidth 8, (part5 >>> 24).setWidth 8, (part5 >>> 16).setWidth 8,
    (part5 >>> 8).setWidth 8, part5.setWidth 8]

/-- `GPT_UUID::to_uuid()` of the structure at `off`. -/
def toUuid (b : Nat → BitVec 8) (off : Nat) : Uuid :=
  let tempPart4 := ((b (off + 8)).setWidth 16 <<< 8) ||| (b (off + 9)).setWidth 16
  let tempPart5 := ((b (off + 10)).setWidth 64 <<< 40) ||| ((b (off + 11)).setWidth 64 <<< 32)
    ||| ((b (off + 12)).setWidth 64 <<< 24) ||| ((b (off + 13)).setWidth 64 <<< 16)
    ||| ((b (off + 14)).setWidth 64 <<< 8) ||| (b (off + 15)).setWidth 64
  Uuid.ofParts (BitVec.ofNat 32 (le b off 4)) (BitVec.ofNat 16 (le b (off + 4) 2))
    (BitVec.ofNat 16 (le b (off + 6) 2)) tempPart4 tempPart5

/-- `GPT_UUID::is_zero()`. -/
def isZero (b : Nat → BitVec 8) (off : Nat) : Bool :=
  (List.range 16).all fun i => b (off + i) = 0

/-! ### `GPT_Header`. -/

def headerChecksum (b : Nat → BitVec 8) : Nat := le b 16 4
def diskUuid (b : Nat → BitVec 8) : Uuid := toUuid b 56
def partitionTableLba (b : Nat → BitVec 8) : Nat := le b 72 8
def partitionCount (b : Nat → BitVec 8) : Nat := le b 80 4
def partitionEntrySize (b : Nat → BitVec 8) : Nat := le b 84 4
def partitionTableChecksum (b : Nat → BitVec 8) : Nat := le b 88 4

/-- `header->header_checksum = 0`. -/
def clearChecksum (b : Nat → BitVec 8) : Nat → BitVec 8 :=
  fun i => if 16 ≤ i ∧ i < 20 then 0 else b i

/-- `"EFI PART"`. -/
def signature : Nat := 0x5452415020494645

/-! ## §2. `parse_partitions`. -/

/-- `GPTParttionParseInformation::Partition`. -/
structure Partition where
  partId : Uuid
  partType : Uuid
  startLba : Nat
  endLba : Nat
  deriving Repr, DecidableEq

/-- `GPTParttionParseInformation`. -/
structure ParseInformation where
  diskId : Uuid
  partitions : List Partition
  deriving Repr, DecidableEq

/-- What the processor stops at. -/
inductive Trap
  | divideError
  deriving Repr, DecidableEq

/-- The `GPT_PartitionEntry` at `off`, unless its type is zero. -/
def entryAt (b : Nat → BitVec 8) (off : Nat) : Option Partition :=
  if isZero b off then none
  else some { partId := toUuid b (off + 16), partType := toUuid b off,
              startLba := le b (off + 32) 8, endLba := le b (off + 40) 8 }

/-- `partitions.push_back(...)`, or `continue`. -/
def pushBack (partitions : List Partition) : Option Partition → List Partition
  | none => partitions
  | some partition => partitions ++ [partition]

/-- One round of the loop over the sectors. -/
def readSector (disk : Disk) (lba size entriesPerSector : Nat)
    (st : BitVec 32 × List Partition) (i : Nat) : BitVec 32 × List Partition :=
  let buffer2 := disk ((lba + i) % 2 ^ 64)
  let checksum := continueCalcCrc32 st.1 ((List.range 512).map buffer2)
  (checksum, (List.range entriesPerSector).foldl
    (fun partitions j => pushBack partitions (entryAt buffer2 (j * size))) st.2)

/-- The number of sectors the loop reads. -/
def tableSectors (count entriesPerSector : Nat) : Nat :=
  count / entriesPerSector + if count % entriesPerSector = 0 then 0 else 1

/-- `parse_partitions(512, ...)`; `none` is the null pointer. -/
def parsePartitions (disk : Disk) : Except Trap (Option ParseInformation) :=
  let buffer := disk 1
  if le buffer 0 8 = signature then
    let checksum := headerChecksum buffer
    let header := clearChecksum buffer
    if checksum ≠ (calcCrc32 ((List.range 92).map header)).toNat then .ok none
    else
      let size := partitionEntrySize header
      if size = 0 then .error .divideError
      else
        let entriesPerSector := 512 / size
        if entriesPerSector = 0 then .error .divideError
        else
          let sectors := tableSectors (partitionCount header) entriesPerSector
          let (checksum, partitions) := (List.range sectors).foldl
            (readSector disk (partitionTableLba header) size entriesPerSector) (beginCalcCrc32, [])
          if (endCalcCrc32 checksum).toNat ≠ partitionTableChecksum header then .ok none
          else .ok (some { diskId := diskUuid header, partitions := partitions })
  else .ok none

/-! ## §3. What the table says. -/

/-- A GUID as it is written: the first three groups are little-endian on the disk. -/
def guid (b : Nat → BitVec 8) (off : Nat) : Uuid :=
  [3, 2, 1, 0, 5, 4, 7, 6, 8, 9, 10, 11, 12, 13, 14, 15].map fun i => b (off + i)

/-- The signature and the checksum of the header are right. -/
def HeaderValid (disk : Disk) : Prop :=
  le (disk 1) 0 8 = signature
    ∧ headerChecksum (disk 1) = (crc32 ((List.range 92).map (clearChecksum (disk 1)))).toNat

/-- Byte `n` of the partition table. -/
def tableByte (disk : Disk) (n : Nat) : BitVec 8 :=
  disk ((partitionTableLba (disk 1) + n / 512) % 2 ^ 64) (n % 512)

/-- The first `n` bytes of the partition table. -/
def tableBytes (disk : Disk) (n : Nat) : List (BitVec 8) := (List.range n).map (tableByte disk)

/-- The checksum of the table is right, over its entries and nothing else. -/
def TableValid (disk : Disk) : Prop :=
  partitionTableChecksum (disk 1)
    = (crc32 (tableBytes disk (partitionCount (disk 1) * partitionEntrySize (disk 1)))).toNat

instance (disk : Disk) : Decidable (HeaderValid disk) := inferInstanceAs (Decidable (_ ∧ _))
instance (disk : Disk) : Decidable (TableValid disk) := inferInstanceAs (Decidable (_ = _))

/-- Entry `i` of the table is not in use. -/
def Unused (disk : Disk) (i : Nat) : Prop :=
  ∀ o, o < 16 → tableByte disk (i * partitionEntrySize (disk 1) + o) = 0

instance (disk : Disk) (i : Nat) : Decidable (Unused disk i) :=
  inferInstanceAs (Decidable (∀ o, o < 16 → _))

/-- Entry `i` of the table. -/
def tableEntry (disk : Disk) (i : Nat) : Partition :=
  let off := i * partitionEntrySize (disk 1)
  { partId := guid (tableByte disk) (off + 16), partType := guid (tableByte disk) off
    startLba := le (tableByte disk) (off + 32) 8, endLba := le (tableByte disk) (off + 40) 8 }

/-- The entries in use below `n`, in table order. -/
def entriesBelow (disk : Disk) (n : Nat) : List Partition :=
  (List.range n).filterMap fun i => if Unused disk i then none else some (tableEntry disk i)

/-- **The disk is parsed as it says**: the entries in use of a valid table, and
nothing when a checksum is wrong. -/
def ParsedAsWritten (disk : Disk) : Prop :=
  parsePartitions disk = .ok
    (if HeaderValid disk ∧ TableValid disk then
      some { diskId := guid (disk 1) 56, partitions := entriesBelow disk (partitionCount (disk 1)) }
    else none)

/-! ## §4. Fields. -/

section Fields

variable {b b' : Nat → BitVec 8}

theorem le_congr {off off' n : Nat} (h : ∀ i, i < n → b (off + i) = b' (off' + i)) :
    le b off n = le b' off' n := by
  induction n generalizing off off' with
  | zero => rfl
  | succ n ih =>
      unfold le
      have hfirst := h 0 (Nat.succ_pos n)
      rw [Nat.add_zero, Nat.add_zero] at hfirst
      rw [hfirst, ih fun i hi => ?_]
      rw [Nat.add_assoc, Nat.add_assoc, Nat.add_comm 1 i]
      exact h (i + 1) (Nat.succ_lt_succ hi)

theorem isZero_iff (off : Nat) : isZero b off = true ↔ ∀ o, o < 16 → b (off + o) = 0 := by
  unfold isZero
  rw [List.all_eq_true]
  simp only [List.mem_range, decide_eq_true_eq]

/-- A byte of a little-endian integer of four bytes. -/
theorem le4_byte (off : Nat) :
    let v := BitVec.ofNat 32 (le b off 4)
    (v >>> 24).setWidth 8 = b (off + 3) ∧ (v >>> 16).setWidth 8 = b (off + 2)
      ∧ (v >>> 8).setWidth 8 = b (off + 1) ∧ v.setWidth 8 = b off := by
  have h0 := (b off).isLt
  have h1 := (b (off + 1)).isLt
  have h2 := (b (off + 2)).isLt
  have h3 := (b (off + 3)).isLt
  have hle : le b off 4 = (b off).toNat + 256 * ((b (off + 1)).toNat
      + 256 * ((b (off + 2)).toNat + 256 * (b (off + 3)).toNat)) := rfl
  intro v
  have hv : v.toNat = le b off 4 := by
    show le b off 4 % 2 ^ 32 = _
    omega
  refine ⟨?_, ?_, ?_, ?_⟩ <;> apply BitVec.eq_of_toNat_eq <;>
    simp only [BitVec.toNat_setWidth, BitVec.toNat_ushiftRight, Nat.shiftRight_eq_div_pow, hv] <;>
    omega

/-- A byte of a little-endian integer of two bytes. -/
theorem le2_byte (off : Nat) :
    let v := BitVec.ofNat 16 (le b off 2)
    (v >>> 8).setWidth 8 = b (off + 1) ∧ v.setWidth 8 = b off := by
  have h0 := (b off).isLt
  have h1 := (b (off + 1)).isLt
  have hle : le b off 2 = (b off).toNat + 256 * (b (off + 1)).toNat := rfl
  intro v
  have hv : v.toNat = le b off 2 := by
    show le b off 2 % 2 ^ 16 = _
    omega
  refine ⟨?_, ?_⟩ <;> apply BitVec.eq_of_toNat_eq <;>
    simp only [BitVec.toNat_setWidth, BitVec.toNat_ushiftRight, Nat.shiftRight_eq_div_pow, hv] <;>
    omega

/-- **`to_uuid` writes the GUID out.** -/
theorem toUuid_eq (off : Nat) : toUuid b off = guid b off := by
  obtain ⟨h3, h2, h1, h0⟩ := le4_byte (b := b) off
  obtain ⟨h5, h4⟩ := le2_byte (b := b) (off + 4)
  obtain ⟨h7, h6⟩ := le2_byte (b := b) (off + 6)
  unfold toUuid guid Uuid.ofParts
  simp only [List.map_cons, List.map_nil, Nat.add_zero, List.cons.injEq, and_true]
  refine ⟨h3, h2, h1, h0, h5, h4, h7, h6, ?_, ?_, ?_, ?_, ?_, ?_, ?_, ?_⟩ <;>
    apply BitVec.eq_of_getLsbD_eq <;> intro i hi
  -- the other bytes of the word are shifted out or not yet in
  all_goals
    have h40 : ∀ n, n ≤ 32 → n + i < 40 := by omega
    have h32 : ∀ n, n ≤ 24 → n + i < 32 := by omega
    have h24 : ∀ n, n ≤ 16 → n + i < 24 := by omega
    have h16 : ∀ n, n ≤ 8 → n + i < 16 := by omega
    simp (disch := omega) [BitVec.getLsbD_of_ge, h40, h32, h24, h16]

/-- The entry at `off`, with its GUIDs written out. -/
theorem entryAt_eq (off : Nat) :
    entryAt b off = if isZero b off then none
      else some { partId := guid b (off + 16), partType := guid b off,
                  startLba := le b (off + 32) 8, endLba := le b (off + 40) 8 } := by
  unfold entryAt
  rw [toUuid_eq, toUuid_eq]

/-- An entry lies in its first 48 bytes. -/
theorem entryAt_congr {off off' : Nat} (h : ∀ i, i < 48 → b (off + i) = b' (off' + i)) :
    entryAt b off = entryAt b' off' := by
  have hguid : ∀ n, n + 16 ≤ 48 → guid b (off + n) = guid b' (off' + n) := by
    intro n hn
    unfold guid
    refine List.map_congr_left fun i hi => ?_
    have hi16 : i < 16 := by
      simp only [List.mem_cons, List.not_mem_nil, or_false] at hi
      omega
    rw [Nat.add_assoc, Nat.add_assoc]
    exact h (n + i) (by omega)
  have hle : ∀ n, n + 8 ≤ 48 → le b (off + n) 8 = le b' (off' + n) 8 := by
    intro n hn
    refine le_congr fun i hi => ?_
    rw [Nat.add_assoc, Nat.add_assoc]
    exact h (n + i) (by omega)
  have hzero : isZero b off = isZero b' off' := by
    rw [Bool.eq_iff_iff, isZero_iff, isZero_iff]
    refine forall₂_congr fun o ho => ?_
    rw [h o (by omega)]
  have hguid0 := hguid 0 (by decide)
  rw [Nat.add_zero, Nat.add_zero] at hguid0
  rw [entryAt_eq, entryAt_eq, hguid 16 (by decide), hguid0, hle 32 (by decide), hle 40 (by decide), hzero]

end Fields

/-- The field of the checksum is no other field. -/
theorem le_clearChecksum {b : Nat → BitVec 8} {off n : Nat} (h : 20 ≤ off) :
    le (clearChecksum b) off n = le b off n := by
  refine le_congr fun i _ => ?_
  unfold clearChecksum
  rw [if_neg (by omega)]

theorem guid_clearChecksum {b : Nat → BitVec 8} {off : Nat} (h : 20 ≤ off) :
    guid (clearChecksum b) off = guid b off := by
  unfold guid
  refine List.map_congr_left fun i _ => ?_
  unfold clearChecksum
  rw [if_neg (by omega)]

/-! ## §5. The loop over the sectors. -/

section Table

variable {disk : Disk}

theorem foldl_pushBack (f : Nat → Option Partition) (js : List Nat) (acc : List Partition) :
    js.foldl (fun acc j => pushBack acc (f j)) acc = acc ++ js.filterMap f := by
  induction js generalizing acc with
  | nil => exact (List.append_nil acc).symm
  | cons j js ih =>
      rw [List.foldl_cons, ih]
      cases hj : f j with
      | none =>
          rw [List.filterMap_cons_none hj]
          rfl
      | some x =>
          rw [List.filterMap_cons_some hj]
          exact List.append_assoc acc [x] _

/-- The bytes of a sector of the table. -/
theorem tableByte_sector (i : Nat) {o : Nat} (ho : o < 512) :
    tableByte disk (i * 512 + o) = disk ((partitionTableLba (disk 1) + i) % 2 ^ 64) o := by
  unfold tableByte
  rw [show (i * 512 + o) / 512 = i by omega, show (i * 512 + o) % 512 = o by omega]

theorem tableBytes_succ (i : Nat) :
    tableBytes disk ((i + 1) * 512) = tableBytes disk (i * 512)
      ++ (List.range 512).map (disk ((partitionTableLba (disk 1) + i) % 2 ^ 64)) := by
  unfold tableBytes
  rw [Nat.succ_mul, List.range_add (n := i * 512) (m := 512), List.map_append, List.map_map]
  refine congrArg _ (List.map_congr_left fun o ho => ?_)
  exact tableByte_sector i (List.mem_range.mp ho)

/-- The entries below `n`, as the code reads them. -/
theorem entriesBelow_eq (n : Nat) :
    entriesBelow disk n = (List.range n).filterMap fun i =>
      entryAt (tableByte disk) (i * partitionEntrySize (disk 1)) := by
  unfold entriesBelow
  refine List.filterMap_congr fun i _ => ?_
  have hunused : Unused disk i
      ↔ isZero (tableByte disk) (i * partitionEntrySize (disk 1)) = true := (isZero_iff _).symm
  rw [entryAt_eq]
  by_cases hi : Unused disk i
  · rw [if_pos hi, if_pos (hunused.mp hi)]
  · rw [if_neg hi, if_neg fun h => hi (hunused.mpr h)]
    rfl

theorem entriesBelow_sector {per : Nat} (hper : partitionEntrySize (disk 1) * per = 512)
    (hsize : 128 ≤ partitionEntrySize (disk 1)) (n : Nat) :
    entriesBelow disk ((n + 1) * per) = entriesBelow disk (n * per)
      ++ (List.range per).filterMap fun j =>
        entryAt (disk ((partitionTableLba (disk 1) + n) % 2 ^ 64))
          (j * partitionEntrySize (disk 1)) := by
  rw [entriesBelow_eq, entriesBelow_eq, Nat.succ_mul, List.range_add (n := n * per) (m := per),
    List.filterMap_append, List.filterMap_map]
  refine congrArg _ (List.filterMap_congr fun j hj => ?_)
  -- entry `j` of the sector does not leave it
  have hj : (j + 1) * partitionEntrySize (disk 1) ≤ per * partitionEntrySize (disk 1) :=
    Nat.mul_le_mul_right _ (List.mem_range.mp hj)
  rw [Nat.mul_comm per, hper, Nat.succ_mul] at hj
  refine entryAt_congr fun o ho => ?_
  refine Eq.trans ?_ (tableByte_sector n (by omega))
  show tableByte disk ((n * per + j) * partitionEntrySize (disk 1) + o) = _
  rw [Nat.add_mul, Nat.mul_assoc, Nat.mul_comm per, hper, Nat.add_assoc]

/-- **The loop invariant**: after `n` sectors the checksum is over their bytes and the
list has their entries. -/
theorem readTable_eq {per : Nat} (hper : partitionEntrySize (disk 1) * per = 512)
    (hsize : 128 ≤ partitionEntrySize (disk 1)) (n : Nat) :
    (List.range n).foldl (readSector disk (partitionTableLba (disk 1))
        (partitionEntrySize (disk 1)) per) (beginCalcCrc32, [])
      = (continueCalcCrc32 beginCalcCrc32 (tableBytes disk (n * 512)),
          entriesBelow disk (n * per)) := by
  induction n with
  | zero =>
      rw [Nat.zero_mul, Nat.zero_mul]
      rfl
  | succ n ih =>
      rw [List.range_succ, List.foldl_append, List.foldl_cons, List.foldl_nil, ih,
        tableBytes_succ, continueCalcCrc32_append, entriesBelow_sector hper hsize]
      exact Prod.ext rfl (foldl_pushBack _ _ _)

/-- Entries to a sector, and the sectors the code reads. -/
def perSector (disk : Disk) : Nat := 512 / partitionEntrySize (disk 1)
def sectorsRead (disk : Disk) : Nat := tableSectors (partitionCount (disk 1)) (perSector disk)

/-- **The code on a disk with a valid header**, for entries that fit a sector. -/
theorem parsePartitions_eq (hheader : HeaderValid disk)
    (hper : partitionEntrySize (disk 1) * perSector disk = 512)
    (hsize : 128 ≤ partitionEntrySize (disk 1)) :
    parsePartitions disk = .ok
      (if partitionTableChecksum (disk 1)
          = (crc32 (tableBytes disk (sectorsRead disk * 512))).toNat then
        some { diskId := guid (disk 1) 56,
               partitions := entriesBelow disk (sectorsRead disk * perSector disk) }
      else none) := by
  have hcount : partitionCount (clearChecksum (disk 1)) = partitionCount (disk 1) :=
    le_clearChecksum (by decide)
  have hentry : partitionEntrySize (clearChecksum (disk 1)) = partitionEntrySize (disk 1) :=
    le_clearChecksum (by decide)
  have hlba : partitionTableLba (clearChecksum (disk 1)) = partitionTableLba (disk 1) :=
    le_clearChecksum (by decide)
  have hchecksum : partitionTableChecksum (clearChecksum (disk 1))
      = partitionTableChecksum (disk 1) := le_clearChecksum (by decide)
  have huuid : diskUuid (clearChecksum (disk 1)) = guid (disk 1) 56 :=
    (toUuid_eq 56).trans (guid_clearChecksum (by decide))
  have hper0 : ¬ perSector disk = 0 := by
    intro h
    rw [h, Nat.mul_zero] at hper
    exact absurd hper (by decide)
  unfold parsePartitions
  dsimp only
  rw [if_pos hheader.1, calcCrc32_eq, if_neg (not_not_intro hheader.2), hentry,
    if_neg (by omega), show 512 / partitionEntrySize (disk 1) = perSector disk from rfl,
    if_neg hper0, hcount, hlba, readTable_eq hper hsize, hchecksum, huuid]
  dsimp only
  rw [endCalcCrc32_eq, show tableSectors _ _ = sectorsRead disk from rfl]
  by_cases hcrc : partitionTableChecksum (disk 1)
      = (crc32 (tableBytes disk (sectorsRead disk * 512))).toNat
  · rw [if_pos hcrc, if_neg (not_not_intro hcrc.symm)]
  · rw [if_neg hcrc, if_pos fun h => hcrc h.symm]

theorem parsePartitions_of_not_headerValid (hheader : ¬ HeaderValid disk) :
    parsePartitions disk = .ok none := by
  unfold parsePartitions
  dsimp only
  by_cases hsig : le (disk 1) 0 8 = signature
  · rw [if_pos hsig, calcCrc32_eq, if_pos fun h => hheader ⟨hsig, h⟩]
  · rw [if_neg hsig]

/-- **Entries larger than a sector** make the code divide by zero. -/
theorem parsePartitions_of_large (hheader : HeaderValid disk)
    (hlarge : 512 < partitionEntrySize (disk 1)) :
    parsePartitions disk = .error .divideError := by
  have hentry : partitionEntrySize (clearChecksum (disk 1)) = partitionEntrySize (disk 1) :=
    le_clearChecksum (by decide)
  unfold parsePartitions
  dsimp only
  rw [if_pos hheader.1, calcCrc32_eq, if_neg (not_not_intro hheader.2), hentry,
    if_neg (by omega), if_pos (Nat.div_eq_of_lt hlarge)]

end Table

/-! ## §6. Which disks are parsed as they say. -/

/-- **What the code relies on**: an entry fits a sector, and what stands behind the
table in its last sector neither turns the checksum over nor looks like an entry in
use. -/
structure TailHarmless (disk : Disk) : Prop where
  fits : partitionEntrySize (disk 1) ≤ 512
  checksum : partitionTableChecksum (disk 1)
    = (crc32 (tableBytes disk (sectorsRead disk * 512))).toNat ↔ TableValid disk
  unused : TableValid disk → ∀ i, partitionCount (disk 1) ≤ i →
    i < sectorsRead disk * perSector disk → Unused disk i

section Exact

variable {disk : Disk}

theorem le_tableSectors_mul (count : Nat) {per : Nat} (hper : 0 < per) :
    count ≤ tableSectors count per * per := by
  have hdiv := Nat.div_add_mod count per
  rw [Nat.mul_comm] at hdiv
  unfold tableSectors
  by_cases hmod : count % per = 0
  · rw [if_pos hmod, Nat.add_zero]
    omega
  · rw [if_neg hmod, Nat.succ_mul]
    have hlt := Nat.mod_lt count hper
    omega

/-- More entries are read than announced without a change when they are not in use. -/
theorem entriesBelow_eq_iff {count n : Nat} (hle : count ≤ n) :
    entriesBelow disk n = entriesBelow disk count
      ↔ ∀ i, count ≤ i → i < n → Unused disk i := by
  obtain ⟨d, rfl⟩ := Nat.exists_eq_add_of_le hle
  unfold entriesBelow
  rw [List.range_add (n := count) (m := d), List.filterMap_append, List.append_right_eq_self,
    List.filterMap_map, List.filterMap_eq_nil_iff]
  constructor
  · intro h i hi hlt
    have hnone := h (i - count) (List.mem_range.mpr (by omega))
    by_contra hused
    have hi : count + (i - count) = i := by omega
    simp only [Function.comp_apply, hi, if_neg hused] at hnone
    exact absurd hnone (Option.some_ne_none _)
  · intro h i hi
    exact if_pos (h (count + i) (by omega) (by
      have := List.mem_range.mp hi
      omega))

/-- A sector is filled by entries of 128, 256 or 512 bytes. -/
theorem perSector_mul {k : Nat} (hsize : partitionEntrySize (disk 1) = 128 * 2 ^ k)
    (hfits : partitionEntrySize (disk 1) ≤ 512) :
    partitionEntrySize (disk 1) * perSector disk = 512 := by
  have hk : k < 3 := by
    by_contra hk
    have hpow : 2 ^ 3 ≤ 2 ^ k := Nat.pow_le_pow_right (by decide) (by omega)
    omega
  unfold perSector
  rw [hsize]
  match k, hk with
  | 0, _ => rfl
  | 1, _ => rfl
  | 2, _ => rfl

/-- **A table of whole sectors** has nothing behind it. -/
theorem tailHarmless_of_dvd {k : Nat} (hsize : partitionEntrySize (disk 1) = 128 * 2 ^ k)
    (hfits : partitionEntrySize (disk 1) ≤ 512)
    (hdvd : partitionCount (disk 1) % perSector disk = 0) : TailHarmless disk := by
  have hper := perSector_mul hsize hfits
  have hcount : sectorsRead disk * perSector disk = partitionCount (disk 1) := by
    unfold sectorsRead tableSectors
    rw [if_pos hdvd, Nat.add_zero]
    exact Nat.div_mul_cancel (Nat.dvd_of_mod_eq_zero hdvd)
  have hbytes : sectorsRead disk * 512 = partitionCount (disk 1) * partitionEntrySize (disk 1) := by
    rw [← hcount, Nat.mul_assoc, Nat.mul_comm (perSector disk), hper]
  refine ⟨hfits, ?_, fun _ i hle hlt => by omega⟩
  rw [hbytes]
  rfl

end Exact

/-- **GPT PARSING.**  A disk with entries of `128 * 2 ^ k` bytes is parsed as it says
(the entries in use below the count, in table order, of a table whose checksum over
exactly its bytes is right, and nothing when a checksum is wrong) exactly when the
header is wrong or the tail of the last sector is harmless. -/
theorem parse_partitions_iff {disk : Disk} {k : Nat}
    (hsize : partitionEntrySize (disk 1) = 128 * 2 ^ k) :
    ParsedAsWritten disk ↔ (HeaderValid disk → TailHarmless disk) := by
  unfold ParsedAsWritten
  by_cases hheader : HeaderValid disk
  · rw [imp_iff_right hheader]
    by_cases hfits : partitionEntrySize (disk 1) ≤ 512
    · have hmin : 128 ≤ partitionEntrySize (disk 1) := by
        rw [hsize]
        exact Nat.le_mul_of_pos_right 128 (Nat.pow_pos (by decide))
      have hper := perSector_mul hsize hfits
      have hpos : 0 < perSector disk := Nat.pos_of_ne_zero fun h => by
        rw [h, Nat.mul_zero] at hper
        exact absurd hper (by decide)
      have hle : partitionCount (disk 1) ≤ sectorsRead disk * perSector disk :=
        le_tableSectors_mul _ hpos
      rw [parsePartitions_eq hheader hper hmin, Except.ok.injEq]
      -- the verdict of the code against the verdict of the table
      by_cases hcrc : partitionTableChecksum (disk 1)
          = (crc32 (tableBytes disk (sectorsRead disk * 512))).toNat
      · rw [if_pos hcrc]
        by_cases hvalid : TableValid disk
        · rw [if_pos (And.intro hheader hvalid), Option.some.injEq, ParseInformation.mk.injEq,
            entriesBelow_eq_iff hle]
          exact ⟨fun h => ⟨hfits, iff_of_true hcrc hvalid, fun _ => h.2⟩,
            fun h => ⟨rfl, h.unused hvalid⟩⟩
        · rw [if_neg fun h : _ ∧ _ => hvalid h.2]
          exact ⟨nofun, fun h => absurd (h.checksum.mp hcrc) hvalid⟩
      · rw [if_neg hcrc]
        by_cases hvalid : TableValid disk
        · rw [if_pos (And.intro hheader hvalid)]
          exact ⟨nofun, fun h => absurd (h.checksum.mpr hvalid) hcrc⟩
        · rw [if_neg fun h : _ ∧ _ => hvalid h.2]
          exact ⟨fun _ => ⟨hfits, iff_of_false hcrc hvalid, fun h => absurd h hvalid⟩,
            fun _ => rfl⟩
    · rw [parsePartitions_of_large hheader (by omega)]
      exact ⟨nofun, fun h => absurd h.fits hfits⟩
  · rw [parsePartitions_of_not_headerValid hheader, if_neg fun h : _ ∧ _ => hheader h.1]
    exact ⟨fun _ h => absurd h hheader, fun _ => rfl⟩

/-! ## §7. A disk with a table. -/

/-- Byte `i` of `v`, lowest first. -/
def byteOf (v i : Nat) : BitVec 8 := BitVec.ofNat 8 (v / 256 ^ i)

/-- A header for a table at sector 2. -/
def headerBytes (count size tableChecksum checksum : Nat) (i : Nat) : BitVec 8 :=
  if i < 8 then byteOf signature i
  else if 16 ≤ i ∧ i < 20 then byteOf checksum (i - 16)
  else if 72 ≤ i ∧ i < 80 then byteOf 2 (i - 72)
  else if 80 ≤ i ∧ i < 84 then byteOf count (i - 80)
  else if 84 ≤ i ∧ i < 88 then byteOf size (i - 84)
  else if 88 ≤ i ∧ i < 92 then byteOf tableChecksum (i - 88)
  else 0

/-- A disk with the bytes of `table` from sector 2 on, and a header that says so. -/
def formatted (count size : Nat) (table : Nat → BitVec 8) : Disk :=
  let tableChecksum := (crc32 ((List.range (count * size)).map table)).toNat
  let checksum := (crc32 ((List.range 92).map (headerBytes count size tableChecksum 0))).toNat
  fun lba o =>
    if lba = 1 then headerBytes count size tableChecksum checksum o
    else table ((lba - 2) * 512 + o)

theorem le_byteOf {b : Nat → BitVec 8} {v off n : Nat}
    (h : ∀ i, i < n → b (off + i) = byteOf v i) : le b off n = v % 256 ^ n := by
  induction n generalizing off v with
  | zero => exact (Nat.mod_one v).symm
  | succ n ih =>
      have hfirst := h 0 (Nat.succ_pos n)
      rw [Nat.add_zero] at hfirst
      have hrest : le b (off + 1) n = v / 256 % 256 ^ n := by
        refine ih fun i hi => ?_
        have hi := h (i + 1) (Nat.succ_lt_succ hi)
        rw [Nat.add_comm i 1, ← Nat.add_assoc] at hi
        rw [hi]
        unfold byteOf
        rw [Nat.add_comm 1 i, Nat.pow_succ', Nat.div_div_eq_div_mul]
      unfold le
      rw [hfirst, hrest, Nat.pow_succ', Nat.mod_mul]
      unfold byteOf
      rw [BitVec.toNat_ofNat, Nat.pow_zero, Nat.div_one]

theorem clearChecksum_headerBytes (count size tableChecksum checksum : Nat) :
    clearChecksum (headerBytes count size tableChecksum checksum)
      = headerBytes count size tableChecksum 0 := by
  funext i
  unfold clearChecksum headerBytes
  by_cases hi : 16 ≤ i ∧ i < 20
  · rw [if_pos hi, if_neg (by omega), if_pos hi]
    unfold byteOf
    rw [Nat.zero_div]
    rfl
  · rw [if_neg hi, if_neg hi, if_neg hi]

theorem headerBytes_fields (count size tableChecksum checksum : Nat) :
    let b := headerBytes count size tableChecksum checksum
    le b 0 8 = signature ∧ headerChecksum b = checksum % 256 ^ 4
      ∧ partitionTableLba b = 2 ∧ partitionCount b = count % 256 ^ 4
      ∧ partitionEntrySize b = size % 256 ^ 4
      ∧ partitionTableChecksum b = tableChecksum % 256 ^ 4 := by
  intro b
  refine ⟨(le_byteOf (v := signature) fun i hi => ?_).trans (by decide), le_byteOf fun i hi => ?_,
    (le_byteOf (v := 2) fun i hi => ?_).trans (by decide), le_byteOf fun i hi => ?_,
    le_byteOf fun i hi => ?_, le_byteOf fun i hi => ?_⟩
  · rw [Nat.zero_add]
    exact if_pos hi
  all_goals
    show headerBytes count size tableChecksum checksum _ = _
    unfold headerBytes
    simp (disch := omega) only [if_pos, if_neg, Nat.add_sub_cancel_left]

theorem formatted_table {count size lba : Nat} (table : Nat → BitVec 8) (h : lba ≠ 1) (o : Nat) :
    formatted count size table lba o = table ((lba - 2) * 512 + o) :=
  if_neg h

/-- **A formatted disk is valid.** -/
theorem formatted_valid {count size : Nat} (hcount : count < 2 ^ 32) (hsize : size < 2 ^ 32)
    (table : Nat → BitVec 8) :
    HeaderValid (formatted count size table) ∧ TableValid (formatted count size table)
      ∧ partitionCount (formatted count size table 1) = count
      ∧ partitionEntrySize (formatted count size table 1) = size := by
  have hone : formatted count size table 1 = headerBytes count size
      (crc32 ((List.range (count * size)).map table)).toNat
      (crc32 ((List.range 92).map (headerBytes count size
        (crc32 ((List.range (count * size)).map table)).toNat 0))).toNat := rfl
  obtain ⟨hsig, hchecksum, hlba, hc, hs, htc⟩ := headerBytes_fields count size
    (crc32 ((List.range (count * size)).map table)).toNat
    (crc32 ((List.range 92).map (headerBytes count size
      (crc32 ((List.range (count * size)).map table)).toNat 0))).toNat
  rw [← hone] at hsig hchecksum hlba hc hs htc
  have hmod : ∀ v : Nat, v < 2 ^ 32 → v % 256 ^ 4 = v := fun v hv => Nat.mod_eq_of_lt hv
  rw [hmod _ (BitVec.isLt _)] at hchecksum htc
  rw [hmod count hcount] at hc
  rw [hmod size hsize] at hs
  refine ⟨⟨hsig, ?_⟩, ?_, hc, hs⟩
  · rw [hchecksum, hone, clearChecksum_headerBytes]
  · have hsmall : count * size < 2 ^ 64 :=
      Nat.lt_of_le_of_lt (Nat.mul_le_mul (Nat.le_of_lt hcount) (Nat.le_refl size))
        (Nat.mul_lt_mul_of_pos_left hsize (by decide))
    have hbytes : tableBytes (formatted count size table) (count * size)
        = (List.range (count * size)).map table := by
      refine List.map_congr_left fun n hn => ?_
      have hn := List.mem_range.mp hn
      unfold tableByte
      rw [hlba, Nat.mod_eq_of_lt (by omega), formatted_table table (by omega)]
      -- byte `n` of the table is where it was put
      exact congrArg table (by omega)
    unfold TableValid
    rw [htc, hc, hs, hbytes]

/-- Four empty entries of 128 bytes. -/
theorem parse_partitions_iff_formatted :
    HeaderValid (formatted 4 128 fun _ => 0) ∧ TableValid (formatted 4 128 fun _ => 0)
      ∧ ParsedAsWritten (formatted 4 128 fun _ => 0) := by
  obtain ⟨hheader, htable, hcount, hsize⟩ :=
    formatted_valid (show 4 < 2 ^ 32 by decide) (show 128 < 2 ^ 32 by decide) fun _ => 0
  refine ⟨hheader, htable, (parse_partitions_iff (k := 0) hsize).mpr fun _ => ?_⟩
  refine tailHarmless_of_dvd (k := 0) hsize (by rw [hsize]; decide) ?_
  unfold perSector
  rw [hcount, hsize]

/-- **A valid table of one entry of 1024 bytes** stops the processor. -/
theorem large_entry_divides_by_zero :
    HeaderValid (formatted 1 1024 fun _ => 0) ∧ TableValid (formatted 1 1024 fun _ => 0)
      ∧ partitionCount (formatted 1 1024 (fun _ => 0) 1) = 1
      ∧ partitionEntrySize (formatted 1 1024 (fun _ => 0) 1) = 128 * 2 ^ 3
      ∧ parsePartitions (formatted 1 1024 fun _ => 0) = .error .divideError := by
  obtain ⟨hheader, htable, hcount, hsize⟩ :=
    formatted_valid (show 1 < 2 ^ 32 by decide) (show 1024 < 2 ^ 32 by decide) fun _ => 0
  exact ⟨hheader, htable, hcount, hsize,
    parsePartitions_of_large hheader (by rw [hsize]; decide)⟩

end MierOS.Gpt
