/-
  MierOS.Lib.ByteWrites
  **RANGES OF BYTES IN A MEMORY**, addresses modulo 2^64: what is read back after
  a sequence of writes.

  Main results: `readBytes_writeAll`, `Write.apart_of_le`, `readWord_of_holds`,
  `readHalf_of_bytes`.
-/
import MierOS.Lib.WordMemory
import Mathlib.Algebra.Group.Nat.Defs
import Mathlib.Data.List.GetD

namespace MierOS.Lib

/-! ## §1. Bytes. -/

/-- The bytes `[addr, addr + n)`. -/
def readBytes (mem : ByteMemory) (addr : Word) (n : Nat) : List (BitVec 8) :=
  (List.range n).map fun k => mem (addr + BitVec.ofNat 64 k)

/-- A little-endian number. -/
def ofBytes : List (BitVec 8) → Nat
  | [] => 0
  | b :: bs => b.toNat + 256 * ofBytes bs

/-- `*(u64_t*)addr`. -/
def readWord (mem : ByteMemory) (addr : Word) : Word :=
  BitVec.ofNat 64 (ofBytes (readBytes mem addr 8))

/-- The bytes of a word. -/
def wordBytes (value : Word) : List (BitVec 8) := (List.range 8).map (byteAt value)

@[simp] theorem length_readBytes (mem : ByteMemory) (addr : Word) (n : Nat) :
    (readBytes mem addr n).length = n := by
  unfold readBytes
  rw [List.length_map, List.length_range]

@[simp] theorem getElem_readBytes (mem : ByteMemory) (addr : Word) {n k : Nat}
    (h : k < (readBytes mem addr n).length) :
    (readBytes mem addr n)[k] = mem (addr + BitVec.ofNat 64 k) := by
  simp [readBytes]

@[simp] theorem length_wordBytes (value : Word) : (wordBytes value).length = 8 := rfl

/-- What is read is what is there, byte by byte. -/
theorem readBytes_eq_iff {mem : ByteMemory} {addr : Word} {bytes : List (BitVec 8)} :
    readBytes mem addr bytes.length = bytes
      ↔ ∀ k (h : k < bytes.length), mem (addr + BitVec.ofNat 64 k) = bytes[k] := by
  constructor
  · intro heq k h
    rw [← getElem_readBytes mem addr (by rw [length_readBytes]; exact h)]
    exact List.getElem_of_eq heq _
  · intro hbytes
    apply List.ext_getElem (length_readBytes mem addr _)
    intro k _ h
    rw [getElem_readBytes]
    exact hbytes k h

theorem readBytes_append (mem : ByteMemory) (addr : Word) (m n : Nat) :
    readBytes mem addr (m + n)
      = readBytes mem addr m ++ readBytes mem (addr + BitVec.ofNat 64 m) n := by
  unfold readBytes
  rw [List.range_add, List.map_append, List.map_map]
  refine congrArg _ (List.map_congr_left fun k _ => ?_)
  show mem (addr + BitVec.ofNat 64 (m + k)) = _
  rw [BitVec.ofNat_add, BitVec.add_assoc]

/-- The bytes of a number are its digits. -/
theorem ofBytes_digit {bs : List (BitVec 8)} {k : Nat} (h : k < bs.length) :
    ofBytes bs / 256 ^ k % 256 = bs[k].toNat := by
  induction bs generalizing k with
  | nil => exact absurd h (Nat.not_lt_zero k)
  | cons b bs ih =>
      have hb := b.isLt
      -- the lowest digit is the first byte, the others are those of the rest
      cases k with
      | zero =>
          show (b.toNat + 256 * ofBytes bs) / 1 % 256 = b.toNat
          omega
      | succ k =>
          have hrest : (b.toNat + 256 * ofBytes bs) / 256 = ofBytes bs := by omega
          show (b.toNat + 256 * ofBytes bs) / 256 ^ (k + 1) % 256 = _
          rw [Nat.pow_succ', ← Nat.div_div_eq_div_mul, hrest]
          exact ih (Nat.lt_of_succ_lt_succ h)

theorem ofBytes_lt (bs : List (BitVec 8)) : ofBytes bs < 256 ^ bs.length := by
  induction bs with
  | nil => exact Nat.one_pos
  | cons b bs ih =>
      have hb := b.isLt
      show b.toNat + 256 * ofBytes bs < 256 ^ (bs.length + 1)
      rw [Nat.pow_succ]
      omega

theorem holdsWord_readWord (mem : ByteMemory) (addr : Word) :
    HoldsWord mem addr (readWord mem addr) := by
  intro k hk
  have hlt : ofBytes (readBytes mem addr 8) < 2 ^ 64 := by
    have hpow := ofBytes_lt (readBytes mem addr 8)
    rwa [length_readBytes] at hpow
  have hlength : k < (readBytes mem addr 8).length := by rw [length_readBytes]; exact hk
  have hdigit := ofBytes_digit hlength
  rw [getElem_readBytes] at hdigit
  apply BitVec.eq_of_toNat_eq
  unfold byteAt readWord
  rw [BitVec.extractLsb'_toNat, BitVec.toNat_ofNat, Nat.mod_eq_of_lt hlt,
    Nat.shiftRight_eq_div_pow, Nat.pow_mul, ← hdigit]

/-- **A word that is there is what is read.** -/
theorem readWord_of_holds {mem : ByteMemory} {addr value : Word} (h : HoldsWord mem addr value) :
    readWord mem addr = value := (holdsWord_readWord mem addr).unique h

theorem holdsWord_of_readBytes {mem : ByteMemory} {addr value : Word}
    (h : readBytes mem addr 8 = wordBytes value) : HoldsWord mem addr value := by
  intro k hk
  have hbyte := readBytes_eq_iff.mp
    (show readBytes mem addr (wordBytes value).length = _ from h) k hk
  rw [hbyte]
  simp [wordBytes]

/-- `*(u16_t*)addr`. -/
def readHalf (mem : ByteMemory) (addr : Word) : BitVec 16 :=
  BitVec.ofNat 16 (ofBytes (readBytes mem addr 2))

/-- The bytes of a half word. -/
def halfBytes (value : BitVec 16) : List (BitVec 8) :=
  [value.extractLsb' 0 8, value.extractLsb' 8 8]

@[simp] theorem length_halfBytes (value : BitVec 16) : (halfBytes value).length = 2 := rfl

theorem ofBytes_halfBytes (value : BitVec 16) : ofBytes (halfBytes value) = value.toNat := by
  have hlt := value.isLt
  show (value.extractLsb' 0 8).toNat + 256 * ((value.extractLsb' 8 8).toNat + 256 * 0) = _
  rw [BitVec.extractLsb'_toNat, BitVec.extractLsb'_toNat, Nat.shiftRight_zero,
    Nat.shiftRight_eq_div_pow]
  omega

/-- **A half word whose bytes are there is what is read.** -/
theorem readHalf_of_bytes {mem : ByteMemory} {addr : Word} {value : BitVec 16}
    (h : readBytes mem addr 2 = halfBytes value) : readHalf mem addr = value := by
  unfold readHalf
  rw [h, ofBytes_halfBytes, BitVec.ofNat_toNat, BitVec.setWidth_eq]

theorem toNat_readHalf (mem : ByteMemory) (addr : Word) :
    (readHalf mem addr).toNat = (mem addr).toNat + 256 * (mem (addr + 1)).toNat := by
  have hlow := (mem addr).isLt
  have hhigh := (mem (addr + 1)).isLt
  have hbytes : ofBytes (readBytes mem addr 2)
      = (mem (addr + 0)).toNat + 256 * ((mem (addr + 1)).toNat + 256 * 0) := rfl
  have hzero : addr + 0 = addr := BitVec.add_zero addr
  unfold readHalf
  rw [BitVec.toNat_ofNat, hbytes, hzero]
  omega

/-- What is read is made of the bytes that are there. -/
theorem halfBytes_readHalf (mem : ByteMemory) (addr : Word) :
    halfBytes (readHalf mem addr) = readBytes mem addr 2 := by
  have hlow := (mem addr).isLt
  have hhigh := (mem (addr + 1)).isLt
  have hbytes : readBytes mem addr 2 = [mem (addr + 0), mem (addr + 1)] := rfl
  have hzero : addr + 0 = addr := BitVec.add_zero addr
  have hfirst : (readHalf mem addr).extractLsb' 0 8 = mem addr := by
    apply BitVec.eq_of_toNat_eq
    rw [BitVec.extractLsb'_toNat, toNat_readHalf, Nat.shiftRight_zero]
    omega
  have hsecond : (readHalf mem addr).extractLsb' 8 8 = mem (addr + 1) := by
    apply BitVec.eq_of_toNat_eq
    rw [BitVec.extractLsb'_toNat, toNat_readHalf, Nat.shiftRight_eq_div_pow]
    omega
  unfold halfBytes
  rw [hfirst, hsecond, hbytes, hzero]

/-! ## §2. Writes. -/

/-- Bytes that go to an address. -/
structure Write where
  addr : Word
  bytes : List (BitVec 8)
  deriving DecidableEq

/-- `memcpy(addr, bytes, ..)`. -/
def Write.apply (mem : ByteMemory) (w : Write) : ByteMemory :=
  fun x => w.bytes.getD (x - w.addr).toNat (mem x)

/-- The memory after all of them, in order. -/
def writeAll (mem : ByteMemory) (ws : List Write) : ByteMemory := ws.foldl Write.apply mem

/-- The write changes the byte at `x`. -/
def Write.Covers (w : Write) (x : Word) : Prop := (x - w.addr).toNat < w.bytes.length

/-- No byte is written by both. -/
def Write.Apart (w w' : Write) : Prop := ∀ x, w.Covers x → ¬ w'.Covers x

/-- The bytes of a write are in memory. -/
def Write.There (mem : ByteMemory) (w : Write) : Prop :=
  readBytes mem w.addr w.bytes.length = w.bytes

theorem Write.Apart.symm {w w' : Write} (h : w.Apart w') : w'.Apart w :=
  fun x hx' hx => h x hx hx'

theorem add_sub_ofNat {addr : Word} {k : Nat} (h : k < 2 ^ 64) :
    (addr + BitVec.ofNat 64 k - addr).toNat = k := by
  rw [BitVec.add_comm, BitVec.add_sub_cancel, BitVec.toNat_ofNat, Nat.mod_eq_of_lt h]

theorem Write.covers_byte {w : Write} (hsize : w.bytes.length ≤ 2 ^ 64) {k : Nat}
    (h : k < w.bytes.length) : w.Covers (w.addr + BitVec.ofNat 64 k) := by
  unfold Covers
  rw [add_sub_ofNat (by omega)]
  exact h

theorem Write.there_apply {w : Write} (hsize : w.bytes.length ≤ 2 ^ 64) (mem : ByteMemory) :
    w.There (w.apply mem) := by
  apply readBytes_eq_iff.mpr
  intro k h
  unfold apply
  rw [add_sub_ofNat (by omega), List.getD_eq_getElem _ _ h]

/-- Elsewhere a write changes nothing. -/
theorem Write.apply_of_not_covers {w : Write} {x : Word} (h : ¬ w.Covers x) (mem : ByteMemory) :
    w.apply mem x = mem x := by
  unfold Covers at h
  unfold apply
  exact List.getD_eq_default _ _ (Nat.le_of_not_lt h)

/-- Bytes that stay as they are keep a write there. -/
theorem Write.There.congr {mem mem' : ByteMemory} {w : Write} (hsize : w.bytes.length ≤ 2 ^ 64)
    (hthere : w.There mem) (hsame : ∀ x, w.Covers x → mem' x = mem x) : w.There mem' := by
  apply readBytes_eq_iff.mpr
  intro k h
  rw [hsame _ (covers_byte hsize h)]
  exact readBytes_eq_iff.mp hthere k h

theorem Write.There.apply {mem : ByteMemory} {w w' : Write} (hsize : w.bytes.length ≤ 2 ^ 64)
    (hthere : w.There mem) (hapart : w.Apart w') : w.There (w'.apply mem) := by
  exact hthere.congr hsize fun x hx => apply_of_not_covers (hapart x hx) mem

theorem Write.There.writeAll {w : Write} (hsize : w.bytes.length ≤ 2 ^ 64) {ws : List Write} :
    ∀ {mem : ByteMemory}, w.There mem → (∀ w' ∈ ws, w.Apart w') → w.There (writeAll mem ws) := by
  induction ws with
  | nil => exact fun hthere _ => hthere
  | cons w' ws ih =>
      intro mem hthere hapart
      exact ih (hthere.apply hsize (hapart w' (List.mem_cons_self ..)))
        fun v hv => hapart v (List.mem_cons_of_mem _ hv)

/-- **Writes that do not overlap are all there in the end.** -/
theorem readBytes_writeAll {ws : List Write} (hapart : ws.Pairwise Write.Apart)
    (hsize : ∀ w ∈ ws, w.bytes.length ≤ 2 ^ 64) :
    ∀ (mem : ByteMemory), ∀ w ∈ ws, w.There (writeAll mem ws) := by
  induction ws with
  | nil => exact fun _ w hw => nomatch hw
  | cons v ws ih =>
      intro mem w hw
      rw [List.pairwise_cons] at hapart
      rcases List.mem_cons.mp hw with rfl | hw
      · -- the first write is kept by all later ones
        have hw' := hsize w (List.mem_cons_self ..)
        exact (Write.there_apply hw' mem).writeAll hw' hapart.1
      · exact ih hapart.2 (fun w hw => hsize w (List.mem_cons_of_mem _ hw)) _ w hw

/-! ## §3. Ranges as offsets. -/

/-- Where an address lies in a range, from the offsets of both. -/
theorem offset_in_range {base x : Word} {offset : Nat} (hfits : offset < 2 ^ 64) :
    (x - (base + BitVec.ofNat 64 offset)).toNat
      = ((x - base).toNat + (2 ^ 64 - offset)) % 2 ^ 64 := by
  have hx := x.isLt
  have hbase := base.isLt
  rw [BitVec.toNat_sub, BitVec.toNat_sub, BitVec.toNat_add, BitVec.toNat_ofNat]
  omega

theorem covers_offset_iff {base x : Word} {offset : Nat} {bytes : List (BitVec 8)}
    (hne : 0 < bytes.length) (hfits : offset + bytes.length ≤ 2 ^ 64) :
    Write.Covers ⟨base + BitVec.ofNat 64 offset, bytes⟩ x
      ↔ offset ≤ (x - base).toNat ∧ (x - base).toNat < offset + bytes.length := by
  have hx := (x - base).isLt
  unfold Write.Covers
  rw [offset_in_range (by omega)]
  show _ < bytes.length ↔ _
  omega

/-- **Ranges that are apart as offsets are apart in memory.** -/
theorem Write.apart_of_le {base : Word} {offset offset' : Nat} {bytes bytes' : List (BitVec 8)}
    (hle : offset + bytes.length ≤ offset') (hfits : offset' + bytes'.length ≤ 2 ^ 64) :
    Write.Apart ⟨base + BitVec.ofNat 64 offset, bytes⟩
      ⟨base + BitVec.ofNat 64 offset', bytes'⟩ := by
  intro x hx hx'
  -- a byte of both would be one offset in two disjoint ranges
  have hne : 0 < bytes.length := Nat.lt_of_le_of_lt (Nat.zero_le _) hx
  have hne' : 0 < bytes'.length := Nat.lt_of_le_of_lt (Nat.zero_le _) hx'
  have hin := (covers_offset_iff hne (by omega)).mp hx
  have hin' := (covers_offset_iff hne' hfits).mp hx'
  omega

/-- Two writes to one address are not apart. -/
theorem Write.not_apart_of_addr {w w' : Write} (haddr : w.addr = w'.addr) (hne : 0 < w.bytes.length)
    (hne' : 0 < w'.bytes.length) : ¬ w.Apart w' := by
  intro h
  apply h w.addr
  · unfold Covers
    rw [BitVec.sub_self]
    exact hne
  · unfold Covers
    rw [haddr, BitVec.sub_self]
    exact hne'

end MierOS.Lib
