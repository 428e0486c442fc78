/-
  MierOS.Ahci.BlockRead
  **READS OF A DISK PARTITION**: `dev_block_read` of the AHCI driver.

  A read is cut off at the end of its partition and handed to the drive in
  requests of at most 65535 sectors: a request takes the low 16 bits of what is
  left.  Of a nonzero multiple of 65536 these are zero, and the loop asks for
  nothing for ever.

  The drive is a parameter: it answers a request with the number of sectors it
  read, which may depend on the requests before.

  Main results: `returns_exactly_iff`, `block_read_iff`.
-/
import MierOS.Types
import MierOS.Lib.Loop
import Mathlib.Data.List.Basic
import Mathlib.Algebra.Group.Nat.Defs

namespace MierOS.Ahci

open Lib

/-! ## §1. The code. -/

/-- `drive_information`, as far as reads look at it. -/
structure DriveInformation where
  atapi : Bool
  support64 : Bool

/-- `drive_file`. -/
structure DriveFile where
  drive : DriveInformation
  partitionStart : BitVec 64
  partitionEnd : BitVec 64

/-- A call of `ahci_ata_read`. -/
structure Request where
  lba : BitVec 64
  sectorCount : BitVec 16
  buffer : BitVec 64

/-- What `ahci_ata_read` answers to a request after others: the sectors read. -/
abbrev AtaRead := List Request → Request → BitVec 64

/-- The variables of the loop, with the requests made so far. -/
structure Reading where
  readCount : BitVec 32
  lba : BitVec 64
  bbuffer : BitVec 64
  requests : List Request

/-- `part_len`. -/
def DriveFile.partLen (dev : DriveFile) : BitVec 64 := dev.partitionEnd - dev.partitionStart + 1

/-- One round of the loop of `dev_block_read`. -/
def readRound (ataRead : AtaRead) (dev : DriveFile) (sectorCount : BitVec 32) (s : Reading) :
    Reading ⊕ (BitVec 32 × List Request) :=
  if s.readCount < sectorCount then
    let curReadCount := (sectorCount - s.readCount).setWidth 16
    let request : Request := ⟨s.lba + dev.partitionStart, curReadCount, s.bbuffer⟩
    let actReadCount := ataRead s.requests request
    if actReadCount ≠ curReadCount.setWidth 64 then
      .inr (s.readCount + actReadCount.setWidth 32, s.requests ++ [request])
    else
      .inl { readCount := s.readCount + curReadCount.setWidth 32
             lba := s.lba + curReadCount.setWidth 64
             bbuffer := s.bbuffer + curReadCount.setWidth 64 * 512
             requests := s.requests ++ [request] }
  else .inr (s.readCount, s.requests)

/-- `dev_block_read(minor, lba, sector_count, buffer)`, with the requests it makes;
`none` when `fuel` rounds of its loop are not enough. -/
def devBlockRead (drives : BitVec 16 → Option DriveFile) (ataRead : AtaRead) (minor : BitVec 16)
    (lba : BitVec 64) (sectorCount : BitVec 32) (buffer : BitVec 64) (fuel : Nat) :
    Option (Except Errno (BitVec 32) × List Request) :=
  match drives minor with
  | none => some (.error .ENODEV, [])
  | some dev =>
      -- Boundary check
      let partLen := dev.partLen
      if lba ≥ partLen then some (.ok 0, [])
      else
        let sectorCount :=
          if lba + sectorCount.setWidth 64 ≥ partLen then (partLen - lba).setWidth 32
          else sectorCount
        if dev.drive.atapi then some (.ok 0, [])
        else
          (Loop.run (readRound ataRead dev sectorCount) fuel ⟨0, lba, buffer, []⟩).map
            fun r => (.ok r.1, r.2)

/-! ## §2. What a read should do. -/

/-- The sectors of the partition. -/
def DriveFile.length (dev : DriveFile) : Nat :=
  dev.partitionEnd.toNat + 1 - dev.partitionStart.toNat

/-- How many sectors there are to read: `min(n, length - lba)`. -/
def due (dev : DriveFile) (lba : BitVec 64) (n : BitVec 32) : Nat :=
  min n.toNat (dev.length - lba.toNat)

/-- The sectors of a request, each with its slot in the buffer. -/
def Request.sectors (r : Request) : List (Nat × BitVec 64) :=
  (List.range r.sectorCount.toNat).map fun i =>
    (r.lba.toNat + i, r.buffer + BitVec.ofNat 64 (512 * i))

/-- **Exactly the sectors due**, in order and into consecutive slots. -/
structure ReadsExactly (dev : DriveFile) (lba : BitVec 64) (n : BitVec 32) (buffer : BitVec 64)
    (answer : Except Errno (BitVec 32) × List Request) : Prop where
  result : ∃ k, answer.1 = .ok k ∧ k.toNat = due dev lba n
  sectors : answer.2.flatMap Request.sectors = (List.range (due dev lba n)).map fun i =>
    (dev.partitionStart.toNat + lba.toNat + i, buffer + BitVec.ofNat 64 (512 * i))
  inside : ∀ s ∈ answer.2.flatMap Request.sectors,
    dev.partitionStart.toNat ≤ s.1 ∧ s.1 ≤ dev.partitionEnd.toNat

/-- The drive carries out every request in full; a request has at most 65535 sectors. -/
def Completes (ataRead : AtaRead) : Prop :=
  ∀ earlier r, ataRead earlier r = r.sectorCount.setWidth 64

/-! ## §3. The loop. -/

/-- A nonzero multiple of 65536 sectors is left. -/
def Stuck (sectorCount : BitVec 32) (s : Reading) : Prop :=
  s.readCount < sectorCount ∧ (sectorCount - s.readCount).setWidth 16 = 0#16

section Rounds

variable {ataRead : AtaRead} (hata : Completes ataRead) (dev : DriveFile)
include hata

/-- One round on a drive that completes its requests. -/
theorem readRound_eq {sectorCount : BitVec 32} {s : Reading} (h : s.readCount < sectorCount) :
    readRound ataRead dev sectorCount s = .inl
      { readCount := s.readCount + ((sectorCount - s.readCount).setWidth 16).setWidth 32
        lba := s.lba + ((sectorCount - s.readCount).setWidth 16).setWidth 64
        bbuffer := s.bbuffer + ((sectorCount - s.readCount).setWidth 16).setWidth 64 * 512
        requests := s.requests ++
          [⟨s.lba + dev.partitionStart, (sectorCount - s.readCount).setWidth 16, s.bbuffer⟩] } := by
  simp [readRound, h, hata _ _]

/-- **Nothing asked for, for ever.** -/
theorem diverges_of_stuck {sectorCount : BitVec 32} {s : Reading} (h : Stuck sectorCount s) :
    Loop.Diverges (readRound ataRead dev sectorCount) s := by
  refine Loop.diverges_of_invariant (Stuck sectorCount) ?_ h
  intro s ⟨hlt, hzero⟩
  have hround := readRound_eq hata dev hlt
  rw [hzero] at hround
  -- the count read stays where it is
  refine ⟨_, hround, ?_⟩
  simpa [Stuck] using And.intro hlt hzero

/-- **From 65536 sectors on** the loop does not end: the first round takes the
count modulo 65536 and leaves a multiple. -/
theorem diverges_of_le {sectorCount : BitVec 32} (h : 65536 ≤ sectorCount.toNat)
    (lba buffer : BitVec 64) :
    Loop.Diverges (readRound ataRead dev sectorCount) ⟨0, lba, buffer, []⟩ := by
  have hpos : (0 : BitVec 32) < sectorCount := BitVec.lt_def.mpr (by show 0 < _; omega)
  have htaken : ((sectorCount.setWidth 16).setWidth 32).toNat = sectorCount.toNat % 65536 := by
    simp only [BitVec.toNat_setWidth]
    omega
  have hbelow : (sectorCount.setWidth 16).setWidth 32 < sectorCount :=
    BitVec.lt_def.mpr (by omega)
  have hleft : (sectorCount - (sectorCount.setWidth 16).setWidth 32).setWidth 16 = 0#16 := by
    apply BitVec.eq_of_toNat_eq
    rw [BitVec.toNat_setWidth, BitVec.toNat_sub_of_le (BitVec.le_of_lt hbelow), htaken]
    show _ % 65536 = 0
    omega
  refine Loop.Diverges.inl (readRound_eq hata dev hpos) (diverges_of_stuck hata dev ?_)
  simpa [Stuck] using And.intro hbelow hleft

/-- **Below 65536 sectors** one request does it. -/
theorem returns_of_lt {sectorCount : BitVec 32} (h : sectorCount.toNat < 65536)
    (lba buffer : BitVec 64) :
    Loop.Returns (readRound ataRead dev sectorCount) ⟨0, lba, buffer, []⟩
      (sectorCount, if sectorCount = 0 then []
        else [⟨lba + dev.partitionStart, sectorCount.setWidth 16, buffer⟩]) := by
  by_cases hzero : sectorCount = 0
  · rw [if_pos hzero]
    refine Loop.Returns.inr ?_
    simp [readRound, hzero]
  · have hpos : (0 : BitVec 32) < sectorCount := by
      refine BitVec.lt_def.mpr (Nat.pos_of_ne_zero fun hnat => hzero ?_)
      exact BitVec.eq_of_toNat_eq hnat
    have hall : (sectorCount.setWidth 16).setWidth 32 = sectorCount := by
      apply BitVec.eq_of_toNat_eq
      simp only [BitVec.toNat_setWidth]
      omega
    rw [if_neg hzero]
    refine Loop.Returns.inl (readRound_eq hata dev hpos) (Loop.Returns.inr ?_)
    simp [readRound, hall]

end Rounds

/-! ## §4. The call. -/

/-- The length a read is cut down to. -/
def readLength (dev : DriveFile) (lba : BitVec 64) (n : BitVec 32) : BitVec 32 :=
  if lba ≥ dev.partLen then 0
  else if lba + n.setWidth 64 ≥ dev.partLen then (dev.partLen - lba).setWidth 32
  else n

/-- What the call answers when it does. -/
def answerOf (dev : DriveFile) (lba : BitVec 64) (n : BitVec 32) (buffer : BitVec 64) :
    Except Errno (BitVec 32) × List Request :=
  (.ok (readLength dev lba n), if readLength dev lba n = 0 then []
    else [⟨lba + dev.partitionStart, (readLength dev lba n).setWidth 16, buffer⟩])

section Call

variable {drives : BitVec 16 → Option DriveFile} {minor : BitVec 16} {dev : DriveFile}
  {ataRead : AtaRead} (hdev : drives minor = some dev) (hatapi : dev.drive.atapi = false)
  (hata : Completes ataRead)
include hdev hatapi hata

/-- **The call returns exactly when** the length it uses is below 65536. -/
theorem devBlockRead_eq_some_iff (lba : BitVec 64) (n : BitVec 32) (buffer : BitVec 64)
    (answer : Except Errno (BitVec 32) × List Request) :
    (∃ fuel, devBlockRead drives ataRead minor lba n buffer fuel = some answer) ↔
      (readLength dev lba n).toNat < 65536 ∧ answer = answerOf dev lba n buffer := by
  by_cases hpast : lba ≥ dev.partLen
  · have hzero : readLength dev lba n = 0 := if_pos hpast
    simp [devBlockRead, hdev, hpast, answerOf, hzero, eq_comm]
  · -- the length the loop is run with
    have hlength : readLength dev lba n =
        if lba + n.setWidth 64 ≥ dev.partLen then (dev.partLen - lba).setWidth 32 else n :=
      if_neg hpast
    have hcall : ∀ fuel, devBlockRead drives ataRead minor lba n buffer fuel =
        (Loop.run (readRound ataRead dev (readLength dev lba n)) fuel ⟨0, lba, buffer, []⟩).map
          fun r => (.ok r.1, r.2) := by
      intro fuel
      simp only [devBlockRead, hdev, hatapi, if_neg hpast, hlength]
      rfl
    by_cases hlt : (readLength dev lba n).toNat < 65536
    · have hret := returns_of_lt hata dev hlt lba buffer
      constructor
      · intro ⟨fuel, hfuel⟩
        rw [hcall] at hfuel
        obtain ⟨r, hr, hanswer⟩ := Option.map_eq_some_iff.mp hfuel
        rw [Loop.Returns.unique ⟨fuel, hr⟩ hret] at hanswer
        exact ⟨hlt, hanswer.symm⟩
      · intro ⟨_, hanswer⟩
        obtain ⟨fuel, hfuel⟩ := hret
        refine ⟨fuel, ?_⟩
        rw [hcall, hfuel, hanswer]
        rfl
    · constructor
      · intro ⟨fuel, hfuel⟩
        rw [hcall] at hfuel
        obtain ⟨r, hr, -⟩ := Option.map_eq_some_iff.mp hfuel
        have hdiverges := diverges_of_le hata dev (Nat.le_of_not_lt hlt) lba buffer
        exact absurd hdiverges (Loop.Returns.not_diverges ⟨fuel, hr⟩)
      · intro ⟨hlt', _⟩
        exact absurd hlt' hlt

end Call

/-- The answer is right exactly when its length is. -/
theorem answerOf_exact_iff {dev : DriveFile} {lba : BitVec 64} {n : BitVec 32} (buffer : BitVec 64)
    (hlt : (readLength dev lba n).toNat < 65536) :
    ReadsExactly dev lba n buffer (answerOf dev lba n buffer) ↔
      (readLength dev lba n).toNat = due dev lba n := by
  constructor
  · intro h
    obtain ⟨k, hk, hdue⟩ := h.result
    rw [← hdue, ← Except.ok.inj hk]
  · intro hdue
    have hsectors : (answerOf dev lba n buffer).2.flatMap Request.sectors =
        (List.range (due dev lba n)).map fun i =>
          (dev.partitionStart.toNat + lba.toNat + i, buffer + BitVec.ofNat 64 (512 * i)) := by
      by_cases hzero : readLength dev lba n = 0
      · have hnone : due dev lba n = 0 := by
          rw [← hdue, hzero]
          rfl
        simp [answerOf, hzero, hnone]
      · -- something is due, so the position is in the partition and the sum does not wrap
        have hpos : 0 < due dev lba n := by
          rw [← hdue]
          exact Nat.pos_of_ne_zero fun hnat => hzero (BitVec.eq_of_toNat_eq hnat)
        have hlba : (lba + dev.partitionStart).toNat = dev.partitionStart.toNat + lba.toNat := by
          have hend := dev.partitionEnd.isLt
          unfold due DriveFile.length at hpos
          rw [BitVec.toNat_add, Nat.mod_eq_of_lt (by omega)]
          omega
        have hcount : ((readLength dev lba n).setWidth 16).toNat = due dev lba n := by
          rw [BitVec.toNat_setWidth, hdue]
          omega
        simp only [answerOf, if_neg hzero, List.flatMap_cons, List.flatMap_nil, List.append_nil,
          Request.sectors, hlba, hcount]
    refine ⟨⟨_, rfl, hdue⟩, hsectors, ?_⟩
    intro s hs
    rw [hsectors] at hs
    obtain ⟨i, hi, rfl⟩ := List.mem_map.mp hs
    have hlt : i < due dev lba n := List.mem_range.mp hi
    unfold due DriveFile.length at hlt
    show _ ≤ dev.partitionStart.toNat + lba.toNat + i ∧ _ + i ≤ _
    omega

/-- **The call reads exactly what is due** when the length it uses is that of what is
due, and below 65536. -/
theorem returns_exactly_iff {drives : BitVec 16 → Option DriveFile} {minor : BitVec 16}
    {dev : DriveFile} {ataRead : AtaRead} (hdev : drives minor = some dev)
    (hatapi : dev.drive.atapi = false) (hata : Completes ataRead) (lba : BitVec 64)
    (n : BitVec 32) (buffer : BitVec 64) :
    (∃ fuel answer, devBlockRead drives ataRead minor lba n buffer fuel = some answer
        ∧ ReadsExactly dev lba n buffer answer) ↔
      (readLength dev lba n).toNat < 65536 ∧ (readLength dev lba n).toNat = due dev lba n := by
  have hcall := devBlockRead_eq_some_iff hdev hatapi hata lba n buffer
  constructor
  · intro ⟨fuel, answer, hreturns, hexact⟩
    obtain ⟨hlt, hanswer⟩ := (hcall answer).mp ⟨fuel, hreturns⟩
    rw [hanswer] at hexact
    exact ⟨hlt, (answerOf_exact_iff buffer hlt).mp hexact⟩
  · intro ⟨hlt, hdue⟩
    obtain ⟨fuel, hfuel⟩ := (hcall _).mpr ⟨hlt, rfl⟩
    exact ⟨fuel, _, hfuel, (answerOf_exact_iff buffer hlt).mpr hdue⟩

/-! ## §5. When the length is right. -/

/-- Nothing asked for; or a position behind the partition; or a partition whose
length fits its 64-bit field, a request that ends below 2^64, and fewer than 65536
sectors due. -/
def Served (dev : DriveFile) (lba : BitVec 64) (n : BitVec 32) : Prop :=
  n = 0 ∨ (dev.partLen.toNat ≤ lba.toNat ∧ dev.length ≤ lba.toNat)
    ∨ (dev.partLen.toNat = dev.length ∧ lba.toNat + n.toNat < 2 ^ 64 ∧ due dev lba n < 65536)

theorem toNat_partLen (dev : DriveFile) :
    dev.partLen.toNat =
      (2 ^ 64 - dev.partitionStart.toNat + dev.partitionEnd.toNat + 1) % 2 ^ 64 := by
  unfold DriveFile.partLen
  rw [BitVec.toNat_add, BitVec.toNat_sub]
  simp

theorem toNat_readLength (dev : DriveFile) (lba : BitVec 64) (n : BitVec 32) :
    (readLength dev lba n).toNat =
      if dev.partLen.toNat ≤ lba.toNat then 0
      else if dev.partLen.toNat ≤ (lba.toNat + n.toNat) % 2 ^ 64 then
        (dev.partLen.toNat - lba.toNat) % 2 ^ 32
      else n.toNat := by
  have hn : (n.setWidth 64).toNat = n.toNat := by
    rw [BitVec.toNat_setWidth]
    have := n.isLt
    omega
  unfold readLength
  by_cases hpast : lba ≥ dev.partLen
  · rw [if_pos hpast, if_pos (BitVec.le_def.mp hpast)]
    rfl
  · have hlt : lba.toNat < dev.partLen.toNat :=
      Nat.lt_of_not_le fun h => hpast (BitVec.le_def.mpr h)
    rw [if_neg hpast, if_neg (Nat.not_le_of_lt hlt)]
    have hle_iff : lba + n.setWidth 64 ≥ dev.partLen ↔
        dev.partLen.toNat ≤ (lba.toNat + n.toNat) % 2 ^ 64 := by
      show dev.partLen ≤ lba + n.setWidth 64 ↔ _
      rw [BitVec.le_def, BitVec.toNat_add, hn]
    by_cases hend : lba + n.setWidth 64 ≥ dev.partLen
    · rw [if_pos hend, if_pos (hle_iff.mp hend), BitVec.toNat_setWidth,
        BitVec.toNat_sub_of_le (BitVec.le_def.mpr (Nat.le_of_lt hlt))]
    · rw [if_neg hend, if_neg fun h => hend (hle_iff.mpr h)]

theorem served_iff (dev : DriveFile) (lba : BitVec 64) (n : BitVec 32) :
    (readLength dev lba n).toNat < 65536 ∧ (readLength dev lba n).toNat = due dev lba n ↔
      Served dev lba n := by
  have hzero : n = 0 ↔ n.toNat = 0 := ⟨fun h => h ▸ rfl, fun h => BitVec.eq_of_toNat_eq h⟩
  have hlen := toNat_partLen dev
  have hstart := dev.partitionStart.isLt
  have hend := dev.partitionEnd.isLt
  have hlba := lba.isLt
  have hn := n.isLt
  rw [toNat_readLength]
  unfold Served due DriveFile.length
  rw [hzero]
  generalize dev.partLen.toNat = p at *
  split_ifs <;> omega

/-- **`dev_block_read` reads exactly what is due** in these cases and no others. -/
theorem block_read_iff (drives : BitVec 16 → Option DriveFile) (minor : BitVec 16)
    (dev : DriveFile) (ataRead : AtaRead) (hdev : drives minor = some dev)
    (hatapi : dev.drive.atapi = false) (hata : Completes ataRead) (lba : BitVec 64)
    (n : BitVec 32) (buffer : BitVec 64) :
    (∃ fuel answer, devBlockRead drives ataRead minor lba n buffer fuel = some answer
        ∧ ReadsExactly dev lba n buffer answer) ↔ Served dev lba n :=
  (returns_exactly_iff hdev hatapi hata lba n buffer).trans (served_iff dev lba n)

/-- A partition of a million sectors. -/
def exampleDrive : DriveFile where
  drive := { atapi := false, support64 := true }
  partitionStart := 2048
  partitionEnd := 1002047

/-- A drive that reads what it is asked for. -/
def completing : AtaRead := fun _ r => r.sectorCount.setWidth 64

theorem completing_completes : Completes completing := fun _ _ => rfl

/-- Eight sectors, from the last four of the partition on. -/
theorem block_read_iff_end :
    (∃ fuel answer,
        devBlockRead (fun _ => some exampleDrive) completing 0 999996 8 0x1000 fuel = some answer
          ∧ ReadsExactly exampleDrive 999996 8 0x1000 answer) ↔ Served exampleDrive 999996 8 :=
  block_read_iff (fun _ => some exampleDrive) 0 exampleDrive completing rfl rfl
    completing_completes 999996 8 0x1000

/-- 65536 sectors from the front: no call returns. -/
theorem block_read_hangs :
    ¬ ∃ fuel answer,
        devBlockRead (fun _ => some exampleDrive) completing 0 0 65536 0x1000 fuel = some answer
          ∧ ReadsExactly exampleDrive 0 65536 0x1000 answer := by
  intro ⟨fuel, answer, hreturns, _⟩
  have hiff : (∃ fuel, devBlockRead (fun _ => some exampleDrive) completing 0 0 65536 0x1000 fuel
      = some answer) ↔ _ :=
    devBlockRead_eq_some_iff rfl rfl completing_completes 0 65536 0x1000 answer
  exact absurd (hiff.mp ⟨fuel, hreturns⟩).1 (by decide)

end MierOS.Ahci
