/-
  MierOS.Arch.Cores
  **CORE NUMBERS AND APIC IDS** (`arch/x86_64/cpu.cpp`): `parse_madt`, `current_core` and
  `send_task_switch_irq`.

  `core_map` leads from the id of a Local APIC to the number of its core.  `current_core`
  reads it that way; `send_task_switch_irq` is given a number and looks it up as if it
  were an id.

  Main results: `coreOrder`, `Numbers`, `Numbers.insert`, `parseMadt_numbers`,
  `reaches_iff`, `task_switch_irq_iff`.
-/
import Mathlib.Data.List.GetD
import MierOS.Lib.Cursor
import MierOS.Stdlib.UnorderedMap

namespace MierOS.Arch.Cores

open Lib Stdlib

/-! ## §1. The code. -/

/-- `core_map`: LAPIC id to linear id. -/
abbrev CoreMap := UnorderedMap UInt32 UInt32

section Code

variable (hash : UInt32 → Nat)

/-- `madt->records[offset]`. -/
def recordByte (records : List UInt8) (offset : Nat) : UInt8 := records.getD offset 0

/-- One round of the loop over the records; a Local APIC entry has type 0.  The other
entries do not touch `core_map`. -/
def visitRecord (records : List UInt8) (offset : Nat) (coreMap : CoreMap) : Visit CoreMap Empty :=
  let length := (recordByte records (offset + 1)).toNat
  if recordByte records offset = 0x00 then
    let apicId := recordByte records (offset + 3)
    let flags := recordByte records (offset + 4)
    if flags &&& 0x03 ≠ 0 then
      -- this CPU can be enabled
      .move length (coreMap.insert hash apicId.toUInt32 (UInt32.ofNat coreMap.size)).2
    else .move length coreMap
  else .move length coreMap

/-- `parse_madt`, on a core whose LAPIC id register is `lapicId`: the map it fills. -/
def parseMadt (fuel : Nat) (lapicId : UInt32) (records : List UInt8) : Option CoreMap :=
  let bspApicId := lapicId >>> 24
  let coreMap := ((UnorderedMap.ofCapacity 16).insert hash bspApicId 0).2
  match scanSegment (visitRecord hash records) records.length fuel 0 coreMap with
  | some (.ok coreMap) => some coreMap
  | _ => none

/-- `core_count`. -/
def coreCount (coreMap : CoreMap) : Nat := coreMap.size

/-- `current_core`, on a core whose LAPIC id register is `lapicId`; `none` is the failed
assertion. -/
def currentCore (coreMap : CoreMap) (lapicId : UInt32) : Option UInt32 :=
  coreMap.at hash (lapicId >>> 24)

/-- `send_ipi`: the writes to the LAPIC, each with its offset. -/
def sendIpi (vector mode destination : UInt8) : List (UInt32 × UInt32) :=
  [(0x310, destination.toUInt32 <<< 24),
    (0x300, vector.toUInt32 ||| ((mode.toUInt32 &&& 7) <<< 8) ||| ((1 : UInt32) <<< 14))]

/-- `send_task_switch_irq`. -/
def sendTaskSwitchIrq (coreMap : CoreMap) (core : UInt32) : List (UInt32 × UInt32) :=
  match coreMap.at hash core with
  | some value => sendIpi 0xFE 0x00 value.toUInt8
  | none => []

end Code

/-! ## §2. The MADT. -/

/-- An entry of the MADT: a Local APIC with its 32 bits of flags, or another entry. -/
inductive MadtEntry where
  | localApic (acpiId apicId flags flags₁ flags₂ flags₃ : UInt8)
  | other (type : UInt8) (rest : List UInt8) (htype : type ≠ 0) (hlength : rest.length + 2 < 256)

namespace MadtEntry

/-- The entry as a record: its type, its length and the rest. -/
def bytes : MadtEntry → List UInt8
  | localApic acpiId apicId flags flags₁ flags₂ flags₃ =>
      [0x00, 8, acpiId, apicId, flags, flags₁, flags₂, flags₃]
  | other type rest _ _ => type :: UInt8.ofNat (rest.length + 2) :: rest

/-- The id of a Local APIC that can be enabled. -/
def enabledId : MadtEntry → Option UInt8
  | localApic _ apicId flags _ _ _ => if flags &&& 0x03 ≠ 0 then some apicId else none
  | other _ _ _ _ => none

theorem enabledId_localApic (acpiId apicId flags flags₁ flags₂ flags₃ : UInt8) :
    (localApic acpiId apicId flags flags₁ flags₂ flags₃).enabledId
      = if flags &&& 0x03 ≠ 0 then some apicId else none := rfl

theorem bytes_ne_nil (e : MadtEntry) : e.bytes ≠ [] := by
  cases e <;> exact List.cons_ne_nil _ _

/-- The second byte of a record is its length. -/
theorem bytes_length (e : MadtEntry) : ((e.bytes).getD 1 0).toNat = e.bytes.length := by
  cases e with
  | localApic => rfl
  | other type rest htype hlength =>
      show (UInt8.ofNat (rest.length + 2)).toNat = rest.length + 1 + 1
      rw [UInt8.toNat_ofNat_of_lt' hlength]

end MadtEntry

/-- `madt->records`. -/
def madtRecords (entries : List MadtEntry) : List UInt8 := entries.flatMap MadtEntry.bytes

/-- The enabled Local APICs, as listed. -/
def enabledIds (entries : List MadtEntry) : List UInt8 := entries.filterMap MadtEntry.enabledId

/-- What one entry does to the map. -/
def addEntry (hash : UInt32 → Nat) (coreMap : CoreMap) (e : MadtEntry) : CoreMap :=
  match e.enabledId with
  | some apicId => (coreMap.insert hash apicId.toUInt32 (UInt32.ofNat coreMap.size)).2
  | none => coreMap

section Records

variable {hash : UInt32 → Nat} {records : List UInt8} {entries : List MadtEntry}

/-- The entry `e` stands at `o` in the records, in `n` bytes. -/
def RecordAt (records : List UInt8) (o : Nat) (e : MadtEntry) (n : Nat) : Prop :=
  n = e.bytes.length ∧ ∃ before after, records = before ++ (e.bytes ++ after) ∧ o = before.length

theorem recordByte_append {before bytes after : List UInt8} {i : Nat} (hi : i < bytes.length) :
    recordByte (before ++ (bytes ++ after)) (before.length + i) = bytes.getD i 0 := by
  unfold recordByte
  rw [List.getD_append_right _ _ _ _ (Nat.le_add_right _ _), Nat.add_sub_cancel_left,
    List.getD_append _ _ _ _ hi]

theorem addEntry_localApic (coreMap : CoreMap)
    (acpiId apicId flags flags₁ flags₂ flags₃ : UInt8) :
    addEntry hash coreMap (.localApic acpiId apicId flags flags₁ flags₂ flags₃)
      = if flags &&& 0x03 ≠ 0 then
          (coreMap.insert hash apicId.toUInt32 (UInt32.ofNat coreMap.size)).2
        else coreMap := by
  unfold addEntry
  rw [MadtEntry.enabledId_localApic]
  by_cases hflags : flags &&& 0x03 ≠ 0
  · rw [if_pos hflags, if_pos hflags]
  · rw [if_neg hflags, if_neg hflags]

/-- **A round at an entry** does what the entry says, and moves behind it. -/
theorem visitRecord_eq {o n : Nat} {e : MadtEntry} (hrecord : RecordAt records o e n)
    (coreMap : CoreMap) :
    visitRecord hash records o coreMap = Visit.of n (.ok (addEntry hash coreMap e)) := by
  obtain ⟨rfl, before, after, rfl, rfl⟩ := hrecord
  have hbyte : ∀ i, i < e.bytes.length →
      recordByte (before ++ (e.bytes ++ after)) (before.length + i) = e.bytes.getD i 0 :=
    fun i hi => recordByte_append hi
  have htwo : 2 ≤ e.bytes.length := by
    cases e <;> simp [MadtEntry.bytes]
  have hlength := congrArg UInt8.toNat (hbyte 1 (by omega))
  rw [e.bytes_length] at hlength
  have htype := hbyte 0 (by omega)
  rw [Nat.add_zero] at htype
  unfold visitRecord
  dsimp only
  rw [hlength, htype]
  cases e with
  | localApic acpiId apicId flags flags₁ flags₂ flags₃ =>
      have hsize :
          (MadtEntry.localApic acpiId apicId flags flags₁ flags₂ flags₃).bytes.length = 8 := rfl
      rw [hbyte 3 (by omega), hbyte 4 (by omega), addEntry_localApic]
      show (if flags &&& 0x03 ≠ 0 then _ else _)
        = Visit.move _ (if flags &&& 0x03 ≠ 0 then _ else _)
      by_cases hflags : flags &&& 0x03 ≠ 0
      · rw [if_pos hflags, if_pos hflags]
        rfl
      · rw [if_neg hflags, if_neg hflags]
  | other type rest htype' hlength' =>
      exact if_neg htype'

theorem madtRecords_tiled (before : List UInt8) (entries : List MadtEntry) :
    Tiled (RecordAt (before ++ madtRecords entries)) (before ++ madtRecords entries).length
      before.length entries := by
  induction entries generalizing before with
  | nil =>
      have hnil : before ++ madtRecords [] = before := List.append_nil before
      rw [hnil]
      exact Tiled.nil
  | cons e entries ih =>
      have hsplit : before ++ madtRecords (e :: entries)
          = (before ++ e.bytes) ++ madtRecords entries := by
        rw [List.append_assoc]
        rfl
      have hrest := ih (before ++ e.bytes)
      have hlen : (before ++ e.bytes).length = before.length + e.bytes.length := List.length_append
      rw [← hsplit, hlen] at hrest
      refine Tiled.cons ⟨rfl, before, madtRecords entries, rfl, rfl⟩ ?_ ?_ hrest
      · exact fun h0 => e.bytes_ne_nil (List.eq_nil_of_length_eq_zero h0)
      · rw [hsplit, List.length_append, List.length_append]
        omega

/-- **The loop over the records** is a fold over the entries. -/
theorem scan_madtRecords (entries : List MadtEntry) {fuel : Nat}
    (hfuel : (madtRecords entries).length ≤ fuel) (coreMap : CoreMap) :
    scanSegment (visitRecord hash (madtRecords entries)) (madtRecords entries).length fuel 0 coreMap
      = some (.ok (entries.foldl (addEntry hash) coreMap)) := by
  have htiled : Tiled (RecordAt (madtRecords entries)) (madtRecords entries).length 0 entries :=
    madtRecords_tiled [] entries
  let step : CoreMap → MadtEntry → Except Empty CoreMap := fun m e => pure (addEntry hash m e)
  have hvisit : ∀ o e n m, n ≠ 0 → o + n ≤ (madtRecords entries).length →
      RecordAt (madtRecords entries) o e n →
      visitRecord hash (madtRecords entries) o m = Visit.of n (step m e) :=
    fun o e n m _ _ hrecord => visitRecord_eq hrecord m
  rw [scanSegment_tiled hvisit htiled (by omega) coreMap, List.foldlM_pure]
  rfl

end Records

/-! ## §3. The numbers. -/

/-- An id that comes up first here gets the next number. -/
def addNew (order : List UInt8) (apicId : UInt8) : List UInt8 :=
  if apicId ∈ order then order else order ++ [apicId]

/-- The ids, each where it comes up first: its place is its number. -/
def coreOrder (ids : List UInt8) : List UInt8 := ids.foldl addNew []

/-- **The map numbers the ids of this list**, each with its place. -/
structure Numbers (hash : UInt32 → Nat) (coreMap : CoreMap) (order : List UInt8) : Prop where
  wf : coreMap.WF hash
  size : coreMap.size = order.length
  nodup : order.Nodup
  entries : ∀ id core, (id, core) ∈ coreMap.entries ↔
    ∃ apicId k, order[k]? = some apicId ∧ id = apicId.toUInt32 ∧ core = UInt32.ofNat k

section Numbering

variable {hash : UInt32 → Nat} {coreMap : CoreMap} {order : List UInt8}

theorem toUInt32_injective {a b : UInt8} (h : a.toUInt32 = b.toUInt32) : a = b := by
  have hnat := congrArg UInt32.toNat h
  rw [UInt8.toNat_toUInt32, UInt8.toNat_toUInt32] at hnat
  exact UInt8.toNat_inj.mp hnat

/-- There are no more ids than bytes. -/
theorem length_le_of_nodup {l : List UInt8} (h : l.Nodup) : l.length ≤ 256 := by
  have hnodup : (l.map UInt8.toNat).Nodup := h.map fun _ _ heq => UInt8.toNat_inj.mp heq
  have hsub : l.map UInt8.toNat ⊆ List.range 256 := by
    intro n hn
    obtain ⟨a, _, rfl⟩ := List.mem_map.mp hn
    exact List.mem_range.mpr a.toNat_lt
  have hle := (hnodup.subperm hsub).length_le
  rwa [List.length_map, List.length_range] at hle

/-- The place behind the others is that of the new id. -/
theorem getElem?_concat_iff {l : List UInt8} {a b : UInt8} {k : Nat} :
    (l ++ [a])[k]? = some b ↔ l[k]? = some b ∨ (k = l.length ∧ a = b) := by
  rcases Nat.lt_trichotomy k l.length with hlt | rfl | hgt
  · rw [List.getElem?_append_left hlt]
    exact ⟨Or.inl, fun h => h.resolve_right fun hlast => absurd hlast.1 (Nat.ne_of_lt hlt)⟩
  · rw [List.getElem?_concat_length, List.getElem?_eq_none (Nat.le_refl _)]
    simp
  · rw [List.getElem?_eq_none (by simp; omega), List.getElem?_eq_none (Nat.le_of_lt hgt)]
    simp
    omega

namespace Numbers

/-- **What `at` finds.** -/
theorem at_iff (h : Numbers hash coreMap order) (a : UInt8) (core : UInt32) :
    coreMap.at hash a.toUInt32 = some core
      ↔ ∃ k, order[k]? = some a ∧ core = UInt32.ofNat k := by
  rw [UnorderedMap.at_eq_some_iff h.wf, h.entries]
  constructor
  · intro ⟨b, k, hk, hab, hcore⟩
    exact ⟨k, toUInt32_injective hab ▸ hk, hcore⟩
  · intro ⟨k, hk, hcore⟩
    exact ⟨a, k, hk, rfl, hcore⟩

theorem mem_iff (h : Numbers hash coreMap order) (a : UInt8) :
    (∃ core, (a.toUInt32, core) ∈ coreMap.entries) ↔ a ∈ order := by
  simp only [h.entries, List.mem_iff_getElem?]
  constructor
  · intro ⟨_, b, k, hk, hab, _⟩
    exact ⟨k, toUInt32_injective hab ▸ hk⟩
  · intro ⟨k, hk⟩
    exact ⟨UInt32.ofNat k, a, k, hk, rfl, rfl⟩

/-- **One insertion**: a new id gets the number of ids there are. -/
theorem insert (h : Numbers hash coreMap order) (a : UInt8) :
    Numbers hash (coreMap.insert hash a.toUInt32 (UInt32.ofNat coreMap.size)).2
      (addNew order a) := by
  unfold addNew
  by_cases hmem : a ∈ order
  · -- the id has its number already
    rw [if_pos hmem, UnorderedMap.insert_of_mem h.wf ((h.mem_iff a).mpr hmem)]
    exact h
  · rw [if_neg hmem]
    obtain ⟨_, hwf, hperm⟩ := UnorderedMap.insert_of_not_mem (v := UInt32.ofNat coreMap.size) h.wf
      (mt (h.mem_iff a).mp hmem)
    refine ⟨hwf, ?_, ?_, fun id core => ?_⟩
    · rw [hwf.size_eq, hperm.length_eq, List.length_cons, ← h.wf.size_eq, h.size,
        List.length_append]
      rfl
    · rw [List.nodup_append]
      refine ⟨h.nodup, List.nodup_singleton a, ?_⟩
      intro x hx y hy hxy
      rw [List.mem_singleton.mp hy] at hxy
      exact hmem (hxy ▸ hx)
    · rw [hperm.mem_iff, List.mem_cons, h.entries, h.size]
      simp only [getElem?_concat_iff]
      constructor
      · rintro (hnew | ⟨b, k, hk, hid, hcore⟩)
        · obtain ⟨rfl, rfl⟩ := Prod.mk.inj hnew
          exact ⟨a, order.length, Or.inr ⟨rfl, rfl⟩, rfl, rfl⟩
        · exact ⟨b, k, Or.inl hk, hid, hcore⟩
      · rintro ⟨b, k, hk | ⟨rfl, rfl⟩, rfl, rfl⟩
        · exact Or.inr ⟨b, k, hk, rfl, rfl⟩
        · exact Or.inl rfl

theorem foldl (h : Numbers hash coreMap order) (entries : List MadtEntry) :
    Numbers hash (entries.foldl (addEntry hash) coreMap)
      ((enabledIds entries).foldl addNew order) := by
  induction entries generalizing coreMap order with
  | nil => exact h
  | cons e entries ih =>
      unfold enabledIds
      rw [List.foldl_cons, List.filterMap_cons]
      cases hid : e.enabledId with
      | none =>
          -- an entry that is no enabled APIC
          have hsame : addEntry hash coreMap e = coreMap := by
            unfold addEntry
            rw [hid]
          rw [hsame]
          exact ih h
      | some a =>
          have hadd : addEntry hash coreMap e
              = (coreMap.insert hash a.toUInt32 (UInt32.ofNat coreMap.size)).2 := by
            unfold addEntry
            rw [hid]
          rw [hadd]
          exact ih (h.insert a)

end Numbers

theorem numbers_empty (hash : UInt32 → Nat) :
    Numbers hash (UnorderedMap.ofCapacity 16) [] := by
  obtain ⟨hwf, hentries⟩ := UnorderedMap.wf_ofCapacity (K := UInt32) (V := UInt32) hash
    (c := 16) (by decide)
  refine ⟨hwf, rfl, List.nodup_nil, fun id core => ?_⟩
  rw [hentries]
  simp

/-- **The map that `parse_madt` fills**: the boot processor is the first, and the enabled
entries follow in the order of the table. -/
theorem parseMadt_numbers (hash : UInt32 → Nat) (entries : List MadtEntry) {bsp : UInt8}
    {lapicId : UInt32} (hbsp : lapicId >>> 24 = bsp.toUInt32) :
    ∃ coreMap, (∀ fuel ≥ (madtRecords entries).length,
        parseMadt hash fuel lapicId (madtRecords entries) = some coreMap)
      ∧ Numbers hash coreMap (coreOrder (bsp :: enabledIds entries)) := by
  have hboot := (numbers_empty hash).insert bsp
  refine ⟨_, fun fuel hfuel => ?_, hboot.foldl entries⟩
  unfold parseMadt
  dsimp only
  rw [hbsp, scan_madtRecords entries hfuel]
  rfl

end Numbering

/-! ## §4. Interrupts for a core. -/

/-- The LAPIC id register of the core with this id. -/
def idRegister (apicId : UInt8) : UInt32 := apicId.toUInt32 <<< 24

/-- **The interrupt for core `core` reaches it**: it is sent to an APIC, and on that core
`current_core` is `core`. -/
def Reaches (hash : UInt32 → Nat) (coreMap : CoreMap) (core : UInt32) : Prop :=
  ∃ apicId, sendTaskSwitchIrq hash coreMap core = sendIpi 0xFE 0x00 apicId
    ∧ currentCore hash coreMap (idRegister apicId) = some core

/-- Whenever core `c` has the id `a`, core `a` has the id `c`. -/
def OwnInverse (order : List UInt8) : Prop :=
  ∀ c a, order[c]? = some a → order[a.toNat]? = some (UInt8.ofNat c)

section Interrupts

variable {hash : UInt32 → Nat} {coreMap : CoreMap} {order : List UInt8} {c k : Nat}

theorem idRegister_shift (a : UInt8) : idRegister a >>> 24 = a.toUInt32 := by
  apply UInt32.toNat_inj.mp
  have ha := a.toNat_lt
  unfold idRegister
  simp [Nat.shiftLeft_eq, Nat.shiftRight_eq_div_pow]
  omega

/-- The message tells its destination. -/
theorem sendIpi_destination {vector mode a b : UInt8}
    (h : sendIpi vector mode a = sendIpi vector mode b) : a = b := by
  unfold sendIpi at h
  injection h with hfirst _
  have hshift : idRegister a = idRegister b := (Prod.mk.inj hfirst).2
  apply toUInt32_injective
  rw [← idRegister_shift, hshift, idRegister_shift]

theorem toNat_ofNat_of_lt (hc : c < 256) : (UInt32.ofNat c).toNat = c :=
  UInt32.toNat_ofNat_of_lt' (Nat.lt_trans hc (by decide))

theorem ofNat_inj_of_lt (hc : c < 256) (hk : k < 256) :
    UInt32.ofNat c = UInt32.ofNat k ↔ c = k := by
  constructor
  · intro h
    have hnat := congrArg UInt32.toNat h
    rwa [toNat_ofNat_of_lt hc, toNat_ofNat_of_lt hk] at hnat
  · exact congrArg UInt32.ofNat

/-- A core number, as the id that it is taken for. -/
theorem ofNat_eq_toUInt32 (hc : c < 256) : UInt32.ofNat c = (UInt8.ofNat c).toUInt32 := by
  apply UInt32.toNat_inj.mp
  rw [UInt8.toNat_toUInt32, toNat_ofNat_of_lt hc, UInt8.toNat_ofNat_of_lt' hc]

namespace Numbers

theorem lt_of_getElem? (h : Numbers hash coreMap order) {a : UInt8} (hk : order[k]? = some a) :
    k < 256 :=
  Nat.lt_of_lt_of_le (List.getElem?_eq_some_iff.mp hk).1 (length_le_of_nodup h.nodup)

/-- **`current_core`** is the place of the id. -/
theorem currentCore_iff (h : Numbers hash coreMap order) (hc : c < 256) (a : UInt8) :
    currentCore hash coreMap (idRegister a) = some (UInt32.ofNat c) ↔ order[c]? = some a := by
  unfold currentCore
  rw [idRegister_shift, h.at_iff]
  constructor
  · intro ⟨k, hk, hcore⟩
    rw [(ofNat_inj_of_lt hc (h.lt_of_getElem? hk)).mp hcore]
    exact hk
  · exact fun hc => ⟨c, hc, rfl⟩

/-- **`send_task_switch_irq`** sends to the place of the core number among the ids. -/
theorem sendTaskSwitchIrq_iff (h : Numbers hash coreMap order) (hc : c < 256) (a : UInt8) :
    sendTaskSwitchIrq hash coreMap (UInt32.ofNat c) = sendIpi 0xFE 0x00 a
      ↔ order[a.toNat]? = some (UInt8.ofNat c) := by
  unfold sendTaskSwitchIrq
  rw [ofNat_eq_toUInt32 hc]
  cases hat : coreMap.at hash (UInt8.ofNat c).toUInt32 with
  | none =>
      -- nothing is sent, and no core has this id
      constructor
      · intro hsend
        cases hsend
      · intro ha
        have hsome := (h.at_iff (UInt8.ofNat c) _).mpr ⟨a.toNat, ha, rfl⟩
        rw [hat] at hsome
        cases hsome
  | some value =>
      obtain ⟨k, hk, rfl⟩ := (h.at_iff _ _).mp hat
      have hk256 := h.lt_of_getElem? hk
      have hvalue : (UInt32.ofNat k).toUInt8.toNat = k := by
        rw [UInt32.toNat_toUInt8, toNat_ofNat_of_lt hk256]
        omega
      constructor
      · intro hsend
        rw [← sendIpi_destination hsend, hvalue]
        exact hk
      · intro ha
        -- the number has one place only
        have heq : k = a.toNat :=
          (List.getElem?_inj (List.getElem?_eq_some_iff.mp hk).1 h.nodup).mp (hk.trans ha.symm)
        have hdest : (UInt32.ofNat k).toUInt8 = a := UInt8.toNat_inj.mp (hvalue.trans heq)
        show sendIpi 0xFE 0x00 (UInt32.ofNat k).toUInt8 = _
        rw [hdest]

/-- **An interrupt for one core** reaches it exactly when the core whose number is that
core's id has that core's number as its id. -/
theorem reaches_iff (h : Numbers hash coreMap order) {a : UInt8} (hc : order[c]? = some a) :
    Reaches hash coreMap (UInt32.ofNat c) ↔ order[a.toNat]? = some (UInt8.ofNat c) := by
  have hc256 := h.lt_of_getElem? hc
  unfold Reaches
  simp only [h.currentCore_iff hc256, h.sendTaskSwitchIrq_iff hc256]
  constructor
  · intro ⟨b, hb, hcb⟩
    obtain rfl := Option.some.inj (hc.symm.trans hcb)
    exact hb
  · exact fun ha => ⟨a, ha, hc⟩

/-- **The interrupts for all cores.** -/
theorem all_reach_iff (h : Numbers hash coreMap order) :
    (∀ c < coreCount coreMap, Reaches hash coreMap (UInt32.ofNat c)) ↔ OwnInverse order := by
  unfold coreCount OwnInverse
  rw [h.size]
  constructor
  · intro hall c a hc
    exact (h.reaches_iff hc).mp (hall c (List.getElem?_eq_some_iff.mp hc).1)
  · intro hown c hlt
    have hc : order[c]? = some order[c] := List.getElem?_eq_getElem hlt
    exact (h.reaches_iff hc).mpr (hown c _ hc)

end Numbers

end Interrupts

/-! ## §5. Reschedule interrupts. -/

/-- The boot processor is core 0, the enabled APICs have the numbers below `core_count`,
each its own, and the interrupt for every number reaches its core. -/
structure Rescheduling (hash : UInt32 → Nat) (coreMap : CoreMap) (bsp : UInt8)
    (enabled : List UInt8) : Prop where
  boot : currentCore hash coreMap (idRegister bsp) = some 0
  numbered : ∀ a ∈ bsp :: enabled, ∃ c < coreCount coreMap,
    currentCore hash coreMap (idRegister a) = some (UInt32.ofNat c)
  distinct : ∀ a ∈ bsp :: enabled, ∀ b ∈ bsp :: enabled,
    currentCore hash coreMap (idRegister a) = currentCore hash coreMap (idRegister b) → a = b
  used : ∀ c < coreCount coreMap, ∃ a ∈ bsp :: enabled,
    currentCore hash coreMap (idRegister a) = some (UInt32.ofNat c)
  reaches : ∀ c < coreCount coreMap, Reaches hash coreMap (UInt32.ofNat c)

theorem prefix_foldl_addNew (order ids : List UInt8) : order <+: ids.foldl addNew order := by
  induction ids generalizing order with
  | nil => exact List.prefix_refl order
  | cons a ids ih =>
      have hstep : order <+: addNew order a := by
        unfold addNew
        split
        · exact List.prefix_refl order
        · exact List.prefix_append order [a]
      exact hstep.trans (ih (addNew order a))

/-- The order holds these ids and no others. -/
theorem mem_coreOrder {ids : List UInt8} {a : UInt8} : a ∈ coreOrder ids ↔ a ∈ ids := by
  have hfold : ∀ order : List UInt8, a ∈ ids.foldl addNew order ↔ a ∈ order ∨ a ∈ ids := by
    induction ids with
    | nil => simp
    | cons b ids ih =>
        intro order
        have hadd : a ∈ addNew order b ↔ a ∈ order ∨ a = b := by
          unfold addNew
          split
          · rename_i hb
            exact ⟨Or.inl, fun h => h.elim id fun heq => heq ▸ hb⟩
          · simp
        rw [List.foldl_cons, ih, hadd, List.mem_cons, or_assoc]
  have hall := hfold []
  rwa [or_iff_right List.not_mem_nil] at hall

section Main

variable {hash : UInt32 → Nat} {coreMap : CoreMap} {order : List UInt8} {bsp : UInt8}
  {enabled : List UInt8}

namespace Numbers

/-- Every core has a number below `core_count`. -/
theorem numbered (h : Numbers hash coreMap order) {a : UInt8} (ha : a ∈ order) :
    ∃ c < coreCount coreMap, order[c]? = some a
      ∧ currentCore hash coreMap (idRegister a) = some (UInt32.ofNat c) := by
  obtain ⟨c, hc⟩ := List.mem_iff_getElem?.mp ha
  refine ⟨c, ?_, hc, (h.currentCore_iff (h.lt_of_getElem? hc) a).mpr hc⟩
  unfold coreCount
  rw [h.size]
  exact (List.getElem?_eq_some_iff.mp hc).1

/-- **All but the interrupts** is as it should be in any case. -/
theorem rescheduling_iff (h : Numbers hash coreMap (coreOrder (bsp :: enabled))) :
    Rescheduling hash coreMap bsp enabled ↔ OwnInverse (coreOrder (bsp :: enabled)) := by
  rw [← h.all_reach_iff]
  refine ⟨Rescheduling.reaches, fun hreaches => ⟨?_, ?_, ?_, ?_, hreaches⟩⟩
  · -- the boot processor was numbered first
    have hfirst : (coreOrder (bsp :: enabled))[0]? = some bsp := by
      obtain ⟨rest, hrest⟩ := prefix_foldl_addNew [bsp] enabled
      show (enabled.foldl addNew [bsp])[0]? = some bsp
      rw [← hrest]
      rfl
    exact (h.currentCore_iff (by decide) bsp).mpr hfirst
  · intro a ha
    obtain ⟨c, hlt, _, hc⟩ := h.numbered (mem_coreOrder.mpr ha)
    exact ⟨c, hlt, hc⟩
  · intro a ha b hb heq
    obtain ⟨c, _, hac, hc⟩ := h.numbered (mem_coreOrder.mpr ha)
    have hbc := (h.currentCore_iff (h.lt_of_getElem? hac) b).mp (heq ▸ hc)
    exact Option.some.inj (hac.symm.trans hbc)
  · intro c hlt
    unfold coreCount at hlt
    rw [h.size] at hlt
    have hc := List.getElem?_eq_getElem hlt
    have hmem := List.getElem_mem hlt
    exact ⟨_, mem_coreOrder.mp hmem, (h.currentCore_iff (h.lt_of_getElem? hc) _).mpr hc⟩

end Numbers

end Main

/-- **RESCHEDULE INTERRUPTS**: for any MADT and any boot processor the cores get their
numbers, and the interrupts reach their cores exactly when the numbering is its own
inverse. -/
theorem task_switch_irq_iff (hash : UInt32 → Nat) (entries : List MadtEntry) (lapicId : UInt32) :
    ∃ coreMap, (∀ fuel ≥ (madtRecords entries).length,
        parseMadt hash fuel lapicId (madtRecords entries) = some coreMap)
      ∧ (Rescheduling hash coreMap (lapicId >>> 24).toUInt8 (enabledIds entries)
        ↔ OwnInverse (coreOrder ((lapicId >>> 24).toUInt8 :: enabledIds entries))) := by
  have hbsp : lapicId >>> 24 = (lapicId >>> 24).toUInt8.toUInt32 := by
    -- the id is the highest byte of the register
    apply UInt32.toNat_inj.mp
    have hlt := lapicId.toNat_lt
    rw [UInt8.toNat_toUInt32, UInt32.toNat_toUInt8]
    simp [Nat.shiftRight_eq_div_pow]
    omega
  obtain ⟨coreMap, hparse, hnumbers⟩ := parseMadt_numbers hash entries hbsp
  exact ⟨coreMap, hparse, hnumbers.rescheduling_iff⟩

/-- The enabled APICs have the ids 0 and 2, and 0 is the boot processor: 1 is the number of
a core and the id of none. -/
theorem interrupt_not_sent :
    ∃ coreMap, (∀ fuel ≥ 16, parseMadt UInt32.toNat fuel 0
        (madtRecords [.localApic 0 0 1 0 0 0, .localApic 1 2 1 0 0 0]) = some coreMap)
      ∧ ¬ Rescheduling UInt32.toNat coreMap 0 [0, 2] := by
  obtain ⟨coreMap, hparse, hnumbers⟩ := parseMadt_numbers UInt32.toNat
    [.localApic 0 0 1 0 0 0, .localApic 1 2 1 0 0 0]
    (show (0 : UInt32) >>> 24 = (0 : UInt8).toUInt32 from rfl)
  refine ⟨coreMap, hparse, fun hresched => ?_⟩
  have hown : OwnInverse [0, 2] := hnumbers.rescheduling_iff.mp hresched
  exact absurd (hown 1 2 rfl) (by decide)

end MierOS.Arch.Cores
