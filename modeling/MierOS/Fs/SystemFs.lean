/-
  MierOS.Fs.SystemFs
  **READS OF THE SYSTEM FILE SYSTEM**: `read` and `seek` of `systemfs.cpp`.

  What is left of a node is `f_size - offset` on `size_t`, and `seek` sets the
  offset without looking at the size.  Behind the end of the node the
  difference wraps and the read copies whatever lies behind its data; the
  branch for small nodes compares the offset first.

  Main results: `read_right_iff`, `reads_right_iff`, `small_read_within`.
-/
import MierOS.Types
import MierOS.Lib.Run
import Mathlib.Algebra.Group.Nat.Defs

namespace MierOS.Fs.SystemFilesystem

open Lib

/-! ## §1. The code. -/

/-- `SEEK_MODE_BEG`, `SEEK_MODE_CUR` and `SEEK_MODE_END`. -/
def seekModeBeg : Int := 0
def seekModeCur : Int := 1
def seekModeEnd : Int := 2

/-- What a read does: its result, and the addresses it copies from, in order. -/
structure Answer where
  result : Except Errno (BitVec 64)
  copied : List (BitVec 64)

/-- A node with its `SysFsVNodeData`; `smallData` is the address of the field. -/
structure Node where
  size : BitVec 64
  staticData : BitVec 64
  readCallback : Option (BitVec 64 → BitVec 64 → Answer × BitVec 64)
  smallData : BitVec 64

/-- `sizeof(vnodeData->small_data)`. -/
def smallSize : BitVec 64 := 16

/-- The addresses `memcpy(_, address, length)` reads. -/
def memcpy (address length : BitVec 64) : List (BitVec 64) :=
  (List.range length.toNat).map fun i => address + BitVec.ofNat 64 i

/-- `SystemFilesystem::read`, with the offset it leaves in the stream. -/
def read (node : Node) (offset length : BitVec 64) : Answer × BitVec 64 :=
  let lengthLeft := node.size - offset
  let length := if length > lengthLeft then lengthLeft else length
  match node.readCallback with
  | some callback => callback offset length
  | none =>
      if node.staticData ≠ 0 then
        (⟨.ok length, memcpy (node.staticData + offset) length⟩, offset + length)
      else if offset > smallSize then (⟨.ok 0, []⟩, offset)
      else
        let length := if length > smallSize - offset then smallSize - offset else length
        (⟨.ok length, memcpy (node.smallData + offset) length⟩, offset + length)

/-- `SystemFilesystem::seek`. -/
def seek (node : Node) (offset position : BitVec 64) (mode : Int) : Answer × BitVec 64 :=
  let moved :=
    if mode = seekModeCur then offset + position
    else if mode = seekModeBeg then position
    else if mode = seekModeEnd then node.size + position
    else offset
  (⟨.ok offset, []⟩, moved)

/-- A call on a stream of the node. -/
inductive Call where
  | read (length : BitVec 64)
  | seek (position : BitVec 64) (mode : Int)

/-- What a call does. -/
def call (node : Node) (offset : BitVec 64) : Call → Answer × BitVec 64
  | .read length => read node offset length
  | .seek position mode => seek node offset position mode

/-- The offset of a stream that was opened and has carried out `calls`. -/
def offsetAfter (node : Node) (calls : List Call) : BitVec 64 :=
  stateAfter (call node) 0 calls

/-! ## §2. What a read should do. -/

/-- The bytes `[offset, min(offset + length, size))` of the data: how many. -/
def available (node : Node) (offset length : BitVec 64) : Nat :=
  min (offset.toNat + length.toNat) node.size.toNat - offset.toNat

/-- The data of a node. -/
def data (memory : BitVec 64 → UInt8) (node : Node) : List UInt8 :=
  (memcpy node.staticData node.size).map memory

/-- **A read of the data**: the bytes that are there and no others, from inside
the data, and the offset behind them. -/
structure Right (memory : BitVec 64 → UInt8) (node : Node) (offset length : BitVec 64)
    (r : Answer × BitVec 64) : Prop where
  result : ∃ n, r.1.result = .ok n ∧ n.toNat = available node offset length
  bytes : r.1.copied.map memory = ((data memory node).drop offset.toNat).take length.toNat
  within : ∀ a ∈ r.1.copied, node.staticData.toNat ≤ a.toNat
    ∧ a.toNat < node.staticData.toNat + node.size.toNat
  offset : r.2.toNat = offset.toNat + available node offset length

/-- A node with static data, which lies in memory in one piece. -/
structure Node.Static (node : Node) : Prop where
  noCallback : node.readCallback = none
  staticData : node.staticData ≠ 0
  fits : node.staticData.toNat + node.size.toNat ≤ 2 ^ 64

/-! ## §3. One read. -/

/-- The length a read is cut down to. -/
def clipped (node : Node) (offset length : BitVec 64) : BitVec 64 :=
  if length > node.size - offset then node.size - offset else length

theorem read_static {node : Node} (h : node.Static) (offset length : BitVec 64) :
    read node offset length =
      (⟨.ok (clipped node offset length),
          memcpy (node.staticData + offset) (clipped node offset length)⟩,
        offset + clipped node offset length) := by
  simp only [read, h.noCallback, if_pos h.staticData]
  rfl

theorem toNat_clipped (node : Node) (offset length : BitVec 64) :
    (clipped node offset length).toNat = min length.toNat (node.size - offset).toNat := by
  unfold clipped
  split
  · rename_i hlt
    have hlt' : (node.size - offset).toNat < length.toNat := BitVec.lt_def.mp hlt
    omega
  · rename_i hle
    have hle' : ¬ (node.size - offset).toNat < length.toNat := fun h => hle (BitVec.lt_def.mpr h)
    omega

/-- Up to the end of the node the length is cut down as it should be. -/
theorem toNat_clipped_of_le {node : Node} {offset : BitVec 64} (h : offset ≤ node.size)
    (length : BitVec 64) :
    (clipped node offset length).toNat = available node offset length := by
  have hle : offset.toNat ≤ node.size.toNat := BitVec.le_def.mp h
  rw [toNat_clipped, BitVec.toNat_sub_of_le h]
  unfold available
  omega

theorem available_eq_zero {node : Node} {offset : BitVec 64} (h : ¬ offset ≤ node.size)
    (length : BitVec 64) : available node offset length = 0 := by
  have hlt : node.size.toNat < offset.toNat := Nat.lt_of_not_le fun hle => h (BitVec.le_def.mpr hle)
  unfold available
  omega

/-- What lies in memory in one piece is read inside of it. -/
theorem mem_memcpy {address length a : BitVec 64}
    (hfits : address.toNat + length.toNat ≤ 2 ^ 64) (ha : a ∈ memcpy address length) :
    address.toNat ≤ a.toNat ∧ a.toNat < address.toNat + length.toNat := by
  obtain ⟨i, hi, rfl⟩ := List.mem_map.mp ha
  have hlt : i < length.toNat := List.mem_range.mp hi
  have haddr : (address + BitVec.ofNat 64 i).toNat = address.toNat + i := by
    rw [BitVec.toNat_add, BitVec.toNat_ofNat, Nat.mod_eq_of_lt (by omega),
      Nat.mod_eq_of_lt (by omega)]
  omega

/-- Copying from the middle is copying the whole and keeping the middle. -/
theorem memcpy_add {address offset length size : BitVec 64}
    (h : offset.toNat + length.toNat ≤ size.toNat) :
    memcpy (address + offset) length
      = ((memcpy address size).drop offset.toNat).take length.toNat := by
  apply List.ext_getElem
  · simp only [memcpy, List.length_map, List.length_range, List.length_take, List.length_drop]
    omega
  · intro i hi hi'
    simp only [memcpy, List.getElem_map, List.getElem_range, List.getElem_take, List.getElem_drop]
    rw [BitVec.add_assoc]
    congr 1
    apply BitVec.eq_of_toNat_eq
    simp

theorem mem_memcpy_add {address offset length size a : BitVec 64}
    (hfits : address.toNat + size.toNat ≤ 2 ^ 64) (h : offset.toNat + length.toNat ≤ size.toNat)
    (ha : a ∈ memcpy (address + offset) length) :
    address.toNat ≤ a.toNat ∧ a.toNat < address.toNat + size.toNat := by
  rw [memcpy_add h] at ha
  exact mem_memcpy hfits (List.mem_of_mem_drop (List.mem_of_mem_take ha))

/-- Bytes behind the end of the data are not there. -/
theorem take_data_eq (memory : BitVec 64 → UInt8) (node : Node) (offset length : BitVec 64) :
    ((data memory node).drop offset.toNat).take length.toNat
      = ((data memory node).drop offset.toNat).take (available node offset length) := by
  have hlen : ((data memory node).drop offset.toNat).length = node.size.toNat - offset.toNat := by
    simp [data, memcpy]
  by_cases hle : length.toNat ≤ node.size.toNat - offset.toNat
  · congr 1
    unfold available
    omega
  · rw [List.take_of_length_le (by omega), List.take_of_length_le]
    unfold available
    omega

/-- **A read up to the end of the node.** -/
theorem right_of_le (memory : BitVec 64 → UInt8) {node : Node} (hs : node.Static)
    {offset : BitVec 64} (h : offset ≤ node.size) (length : BitVec 64) :
    Right memory node offset length (read node offset length) := by
  have hle : offset.toNat ≤ node.size.toNat := BitVec.le_def.mp h
  have hn := toNat_clipped_of_le h length
  have hbound : offset.toNat + available node offset length ≤ node.size.toNat := by
    unfold available
    omega
  have hinside : offset.toNat + (clipped node offset length).toNat ≤ node.size.toNat := by
    omega
  rw [read_static hs]
  refine ⟨⟨_, rfl, hn⟩, ?_, ?_, ?_⟩
  · show (memcpy (node.staticData + offset) (clipped node offset length)).map memory = _
    rw [memcpy_add hinside, hn, take_data_eq, data, List.map_take, List.map_drop]
  · intro a ha
    exact mem_memcpy_add hs.fits hinside ha
  · show (offset + clipped node offset length).toNat = _
    have hsize : node.size.toNat < 2 ^ 64 := node.size.isLt
    rw [BitVec.toNat_add, hn, Nat.mod_eq_of_lt (by omega)]

/-- A read of nothing copies nothing, wherever the offset is. -/
theorem right_of_length_zero (memory : BitVec 64 → UInt8) {node : Node} (hs : node.Static)
    (offset : BitVec 64) : Right memory node offset 0 (read node offset 0) := by
  have hzero : clipped node offset 0 = 0 := by
    apply BitVec.eq_of_toNat_eq
    rw [toNat_clipped]
    simp
  have hav : available node offset 0 = 0 := by
    have hno : (0 : BitVec 64).toNat = 0 := rfl
    unfold available
    omega
  rw [read_static hs, hzero]
  refine ⟨⟨0, rfl, by rw [hav]; rfl⟩, ?_, ?_, ?_⟩
  · simp [memcpy]
  · intro a ha
    simp [memcpy] at ha
  · rw [hav]
    simp

/-- **Behind the end of the node** a read of anything returns bytes all the same. -/
theorem not_right_of_lt (memory : BitVec 64 → UInt8) {node : Node} (hs : node.Static)
    {offset length : BitVec 64} (h : ¬ offset ≤ node.size) (hlength : length ≠ 0) :
    ¬ Right memory node offset length (read node offset length) := by
  intro hright
  obtain ⟨n, hresult, hn⟩ := hright.result
  rw [available_eq_zero h] at hn
  rw [read_static hs] at hresult
  obtain rfl : clipped node offset length = n := Except.ok.inj hresult
  have hlt : node.size.toNat < offset.toNat := Nat.lt_of_not_le fun hle => h (BitVec.le_def.mpr hle)
  have hleft : (node.size - offset).toNat ≠ 0 := by
    -- the difference wraps: only equal words have difference 0
    intro hzero
    have heq : node.size - offset = 0#64 := BitVec.eq_of_toNat_eq hzero
    rw [BitVec.sub_eq_iff_eq_add, BitVec.zero_add] at heq
    rw [heq] at hlt
    omega
  have hpos : length.toNat ≠ 0 := fun hzero => hlength (BitVec.eq_of_toNat_eq hzero)
  rw [toNat_clipped] at hn
  omega

/-- **One read is right exactly when** the offset is not behind the end of the
node, or nothing is asked for. -/
theorem read_right_iff (memory : BitVec 64 → UInt8) {node : Node} (hs : node.Static)
    (offset length : BitVec 64) :
    Right memory node offset length (read node offset length) ↔
      offset ≤ node.size ∨ length = 0 := by
  constructor
  · intro hright
    by_contra hneither
    rw [not_or] at hneither
    exact not_right_of_lt memory hs hneither.1 hneither.2 hright
  · intro h
    rcases h with hle | hzero
    · exact right_of_le memory hs hle length
    · rw [hzero]
      exact right_of_length_zero memory hs offset

/-- A node with small data is read inside of the field: the offset is compared
with its size before the difference is taken. -/
theorem small_read_within {node : Node} (hcb : node.readCallback = none)
    (hstatic : node.staticData = 0) (hfits : node.smallData.toNat + 16 ≤ 2 ^ 64)
    (offset length : BitVec 64) :
    ∀ a ∈ (read node offset length).1.copied,
      node.smallData.toNat ≤ a.toNat ∧ a.toNat < node.smallData.toNat + 16 := by
  intro a ha
  simp only [read, hcb, hstatic, ne_eq, not_true_eq_false, if_false] at ha
  split at ha
  · simp at ha
  · rename_i hle
    have hoff : offset.toNat ≤ 16 := Nat.le_of_not_lt fun hlt => hle (BitVec.lt_def.mpr hlt)
    have hsub : (smallSize - offset).toNat = 16 - offset.toNat :=
      BitVec.toNat_sub_of_le (BitVec.le_def.mpr hoff)
    -- whatever was asked for, at most the rest of the field is left
    have hlen : ∀ n : BitVec 64,
        (if n > smallSize - offset then smallSize - offset else n).toNat ≤ 16 - offset.toNat := by
      intro n
      split
      · exact Nat.le_of_eq hsub
      · rename_i hn
        rw [← hsub]
        exact Nat.le_of_not_lt fun hlt => hn (BitVec.lt_def.mpr hlt)
    have hin : ∀ n : BitVec 64, offset.toNat
        + (if n > smallSize - offset then smallSize - offset else n).toNat
          ≤ (16 : BitVec 64).toNat := by
      intro n
      have hbound := hlen n
      show offset.toNat + _ ≤ 16
      omega
    have hfield : node.smallData.toNat + (16 : BitVec 64).toNat ≤ 2 ^ 64 := hfits
    exact mem_memcpy_add hfield (hin _) ha

theorem small_read_within_long : (read ⟨16, 0, none, 64⟩ 8 100).1.copied ≠ [] ∧
    ∀ a ∈ (read ⟨16, 0, none, 64⟩ 8 100).1.copied, 64 ≤ a.toNat ∧ a.toNat < 80 :=
  ⟨by decide, small_read_within rfl rfl (by decide) 8 100⟩

/-! ## §4. Sequences of calls on a stream. -/

/-- **Every read of a sequence of calls is right exactly when** none of them asks
for bytes from behind the end of the node. -/
theorem reads_right_iff (memory : BitVec 64 → UInt8) (node : Node) (hs : node.Static)
    (calls : List Call) :
    (∀ before length later, calls = before ++ .read length :: later →
        Right memory node (offsetAfter node before) length
          (read node (offsetAfter node before) length))
      ↔ ∀ before length later, calls = before ++ .read length :: later →
          offsetAfter node before ≤ node.size ∨ length = 0 := by
  refine forall_congr' fun before => forall_congr' fun length => forall_congr' fun later => ?_
  exact imp_congr_right fun _ => read_right_iff memory hs (offsetAfter node before) length

/-- Four bytes at address `0x1000`. -/
def smallNode : Node where
  size := 4
  staticData := 0x1000
  readCallback := none
  smallData := 0x2000

theorem smallNode_static : smallNode.Static := ⟨rfl, by decide, by decide⟩

/-- A read of two bytes after a seek to the third. -/
theorem reads_right_iff_two :
    (∀ before length later, [Call.seek 2 seekModeBeg, .read 2] = before ++ .read length :: later →
        Right (fun a => a.toNat.toUInt8) smallNode (offsetAfter smallNode before) length
          (read smallNode (offsetAfter smallNode before) length))
      ↔ ∀ before length later,
          [Call.seek 2 seekModeBeg, .read 2] = before ++ .read length :: later →
          offsetAfter smallNode before ≤ smallNode.size ∨ length = 0 :=
  reads_right_iff (fun a => a.toNat.toUInt8) smallNode smallNode_static
    [.seek 2 seekModeBeg, .read 2]

/-- Behind a seek to offset 8 a read of three bytes returns three. -/
theorem read_behind_end :
    ¬ ∀ before length later, [Call.seek 8 seekModeBeg, .read 3] = before ++ .read length :: later →
        Right (fun a => a.toNat.toUInt8) smallNode (offsetAfter smallNode before) length
          (read smallNode (offsetAfter smallNode before) length) := by
  intro h
  obtain ⟨n, hresult, hn⟩ := (h [.seek 8 seekModeBeg] 3 [] rfl).result
  have hthree : n = 3 := (Except.ok.inj hresult).symm
  rw [hthree] at hn
  exact absurd hn (by decide)

end MierOS.Fs.SystemFilesystem
