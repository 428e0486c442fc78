/-
  MierOS.Tasking.Mmap
  **THE RANGE CHECK OF mmap AND munmap**: `memory.cpp` and the loops it calls.

  Both handlers round `length` up to pages and shift the count back, in 64 bits,
  before they compare.  The count itself is always exact; the shifted size is
  exact up to the last page below `2^64`, and 0 from there on.

  Main results: `toNat_pageLen`, `not_outsideUser_iff`, `range_checked_iff`.
-/
import MierOS.Lib.LowBits
import MierOS.Tasking.Syscalls
import MierOS.Tasking.ProcessMemory

namespace MierOS.Tasking.Syscalls

open Lib

/-! ## §1. The code. -/

/-- The keys of `for(size_t i = 0; i < length; ++i)` in `null_pages`,
`alloc_pages`, `file_pages` and `unmap_pages`: `addr + (i << 12)`. -/
def pageKeys (addr length : Arg) : List Arg :=
  (List.range length.toNat).map fun i => addr + (BitVec.ofNat 64 i <<< 12)

/-- The pages `munmap` goes through; `none` where it returns before its loop. -/
def munmapKeys (ptr length : Arg) : Option (List Arg) :=
  if OutsideUser (pageOf ptr) (pageLen length) then none
  else some (pageKeys (pageOf ptr) (pageLen length))

/-- The pages `mmap` goes through; `none` where it ends before its loop. -/
def mmapKeys {N : Type} (k : Kernel N) (ptr length prot flags fd offset : Arg) :
    Option (List Arg) :=
  if pageOf ptr ≠ 0 ∧ OutsideUser (pageOf ptr) (pageLen length) then none
  else
    let addr := k.getFreeAddr (pageOf ptr) (pageLen length)
    if prot = 0 then some (pageKeys addr (pageLen length))  -- `null_pages`
    else if flags &&& 2 ≠ 0 then some (pageKeys addr (pageLen length))  -- `alloc_pages`
    else
      match k.getStream fd with
      | none => none
      | some stream =>
          if stream.type ≠ streamTypeFile then none
          else if offset &&& 0xFFF ≠ 0 then none
          else some (pageKeys addr (pageLen length))  -- `file_pages`

/-! ## §2. What the check is for. -/

/-- The number of pages `length` bytes take. -/
def pageCount (length : Arg) : Nat := (length.toNat + 4095) / 4096

/-- The address of the page `ptr` lies in. -/
def pageBase (ptr : Arg) : Nat := ptr.toNat / 4096 * 4096

/-- The range lies in the user half. -/
structure InUser (ptr length : Arg) : Prop where
  above : mmapMinAddr.toNat ≤ pageBase ptr
  below : pageBase ptr + 4096 * pageCount length ≤ kernelStart.toNat

/-- A loop takes the pages of `length`, no more and no fewer. -/
def ExactLoop (keys : Option (List Arg)) (length : Arg) : Prop :=
  ∀ l, keys = some l → l.length = pageCount length

/-- `munmap` does what its check is for. -/
def MunmapRight (ptr length : Arg) : Prop :=
  syscallMunmap ptr length ≠ returnErrno .EINVAL →
    InUser ptr length ∧ ExactLoop (munmapKeys ptr length) length

/-- `mmap` at a given address does what its check is for. -/
def MmapRight {N : Type} (k : Kernel N) (ptr length prot flags fd offset : Arg) : Prop :=
  ptr ≠ 0 → syscallMmap k ptr length prot flags fd offset ≠ returnErrno .EINVAL →
    InUser ptr length ∧ ExactLoop (mmapKeys k ptr length prot flags fd offset) length

/-- The range begins in the user half. -/
def StartsInUser (ptr : Arg) : Prop :=
  mmapMinAddr.toNat ≤ pageBase ptr ∧ pageBase ptr < kernelStart.toNat

/-- Rounded up to pages, the size is `2^64`, which a `size_t` holds as 0. -/
def SizeWraps (length : Arg) : Prop := 18446744073709547520 < length.toNat

/-- `mmap` refuses the file offset. -/
def OffsetRefused {N : Type} (k : Kernel N) (prot flags fd offset : Arg) : Prop :=
  prot ≠ 0 ∧ flags &&& 2 = 0 ∧
    ∃ stream, k.getStream fd = some stream ∧ stream.type = streamTypeFile ∧ offset &&& 0xFFF ≠ 0

/-! ## §3. The arithmetic of the check. -/

@[simp] theorem toNat_mmapMinAddr : mmapMinAddr.toNat = 1048576 := rfl

@[simp] theorem toNat_kernelStart : kernelStart.toNat = 18446744071562067968 := rfl

theorem inUser_iff (ptr length : Arg) :
    InUser ptr length ↔ 1048576 ≤ pageBase ptr
      ∧ pageBase ptr + 4096 * pageCount length ≤ 18446744071562067968 :=
  ⟨fun h => ⟨h.above, h.below⟩, fun h => ⟨h.1, h.2⟩⟩

theorem toNat_and_low (a : Arg) : (a &&& 0xFFF).toNat = a.toNat % 4096 :=
  LowBits.toNat_and_mask (show 12 ≤ 64 by decide) a

theorem toNat_pageOf (a : Arg) : (pageOf a).toNat = pageBase a :=
  LowBits.toNat_and_not_mask 12 a

theorem pageBase_lt (a : Arg) : pageBase a < 18446744073709551616 := by
  rw [← toNat_pageOf]
  exact (pageOf a).isLt

/-- **The number of pages is exact**: `(length >> 12) + 1` does not wrap. -/
theorem toNat_pageLen (length : Arg) : (pageLen length).toNat = pageCount length :=
  LowBits.toNat_blocks (show 0 < 12 by decide) (by decide) length

/-- The shift back is what can lose bits. -/
theorem toNat_size (length : Arg) :
    (pageLen length <<< 12).toNat = 4096 * pageCount length % 18446744073709551616 := by
  rw [BitVec.toNat_shiftLeft, toNat_pageLen, Nat.shiftLeft_eq, Nat.mul_comm]

theorem size_exact {length : Arg} (h : ¬ SizeWraps length) :
    (pageLen length <<< 12).toNat = 4096 * pageCount length := by
  rw [toNat_size]
  unfold SizeWraps at h
  unfold pageCount
  omega

theorem size_wraps {length : Arg} (h : SizeWraps length) : (pageLen length <<< 12).toNat = 0 := by
  have hlt := length.isLt
  rw [toNat_size]
  unfold SizeWraps at h
  unfold pageCount
  omega

/-- A range whose size wraps is longer than the user half. -/
theorem not_inUser_of_wraps {ptr length : Arg} (h : SizeWraps length) : ¬ InUser ptr length := by
  intro hin
  have hbelow := hin.below
  rw [toNat_kernelStart] at hbelow
  unfold SizeWraps at h
  unfold pageCount at hbelow
  omega

/-- **The check in exact arithmetic.**  A size that wraps passes from wherever it
begins in the user half. -/
theorem not_outsideUser_iff (ptr length : Arg) :
    ¬ OutsideUser (pageOf ptr) (pageLen length)
      ↔ StartsInUser ptr ∧ (SizeWraps length ∨ InUser ptr length) := by
  have hbase := pageBase_lt ptr
  unfold OutsideUser StartsInUser
  simp only [BitVec.lt_def, BitVec.le_def, BitVec.toNat_add, toNat_pageOf, toNat_mmapMinAddr,
    toNat_kernelStart]
  by_cases hwraps : SizeWraps length
  · -- the size is 0, so the two last comparisons are of the address with itself
    rw [size_wraps hwraps]
    simp only [hwraps, true_or, and_true]
    omega
  · have hsize : 4096 * pageCount length < 18446744073709551616 := by
      unfold SizeWraps at hwraps
      unfold pageCount
      omega
    rw [size_exact hwraps, inUser_iff]
    simp only [hwraps, false_or]
    omega

/-! ## §4. The loops. -/

@[simp] theorem length_pageKeys (addr length : Arg) :
    (pageKeys addr length).length = length.toNat := by
  unfold pageKeys
  rw [List.length_map, List.length_range]

theorem toNat_pageShift (i : Nat) :
    (BitVec.ofNat 64 i <<< 12).toNat = 4096 * i % 18446744073709551616 := by
  rw [BitVec.toNat_shiftLeft, BitVec.toNat_ofNat, Nat.shiftLeft_eq]
  omega

theorem mem_pageKeys {key addr length : Arg} :
    key ∈ pageKeys addr length
      ↔ ∃ i < length.toNat, addr + (BitVec.ofNat 64 i <<< 12) = key := by
  unfold pageKeys
  simp only [List.mem_map, List.mem_range]

theorem munmapKeys_exact (ptr length : Arg) : ExactLoop (munmapKeys ptr length) length := by
  intro l hl
  unfold munmapKeys at hl
  split_ifs at hl with hout
  rw [Option.some_inj] at hl
  rw [← hl, length_pageKeys, toNat_pageLen]

/-- Whatever `mmap` maps, it maps from the address `get_free_addr` gave. -/
theorem mmapKeys_eq {N : Type} {k : Kernel N} {ptr length prot flags fd offset : Arg}
    {l : List Arg} (h : mmapKeys k ptr length prot flags fd offset = some l) :
    l = pageKeys (k.getFreeAddr (pageOf ptr) (pageLen length)) (pageLen length) := by
  unfold mmapKeys at h
  -- in the order of the handler's branches
  by_cases hout : pageOf ptr ≠ 0 ∧ OutsideUser (pageOf ptr) (pageLen length)
  · rw [if_pos hout] at h
    exact absurd h (by simp)
  rw [if_neg hout] at h
  by_cases hnull : prot = 0
  · rw [if_pos hnull] at h
    exact (Option.some_inj.mp h).symm
  by_cases hanon : flags &&& 2 = 0
  · rw [if_neg hnull, if_neg (not_not.mpr hanon)] at h
    cases hstream : k.getStream fd with
    | none => simp [hstream] at h
    | some stream =>
        simp only [hstream] at h
        split_ifs at h
        exact (Option.some_inj.mp h).symm
  · rw [if_neg hnull, if_pos hanon] at h
    exact (Option.some_inj.mp h).symm

theorem mmapKeys_exact {N : Type} (k : Kernel N) (ptr length prot flags fd offset : Arg) :
    ExactLoop (mmapKeys k ptr length prot flags fd offset) length := by
  intro l hl
  rw [mmapKeys_eq hl, length_pageKeys, toNat_pageLen]

/-! ## §5. What gets through. -/

/-- No address of the user half is an error. -/
theorem returns_ne_errno {value : Arg} (h : value < kernelStart) (e : ErrT) :
    Outcome.returns value ≠ returnErrno e := by
  intro heq
  have hbelow := kernelStart_lt_minus e
  rw [returnErrno_eq, Outcome.returns.injEq] at heq
  rw [heq, BitVec.lt_def] at h
  rw [BitVec.lt_def] at hbelow
  omega

theorem munmap_einval_iff (ptr length : Arg) :
    syscallMunmap ptr length = returnErrno .EINVAL
      ↔ OutsideUser (pageOf ptr) (pageLen length) := by
  unfold syscallMunmap
  by_cases hout : OutsideUser (pageOf ptr) (pageLen length)
  · simp only [hout, if_true]
  · simp only [hout, if_false, iff_false]
    exact returns_ne_errno (by decide) _

theorem mmap_einval_iff {N : Type} (k : Kernel N) (ptr length prot flags fd offset : Arg) :
    syscallMmap k ptr length prot flags fd offset = returnErrno .EINVAL
      ↔ (pageOf ptr ≠ 0 ∧ OutsideUser (pageOf ptr) (pageLen length))
        ∨ OffsetRefused k prot flags fd offset := by
  have haddr := returns_ne_errno (k.getFreeAddr (pageOf ptr) (pageLen length)).2 .EINVAL
  unfold syscallMmap OffsetRefused
  by_cases hout : pageOf ptr ≠ 0 ∧ OutsideUser (pageOf ptr) (pageLen length)
  · rw [if_pos hout]
    exact iff_of_true rfl (Or.inl hout)
  rw [if_neg hout]
  simp only [hout, false_or]
  by_cases hnull : prot = 0
  · rw [if_pos hnull]
    exact iff_of_false haddr fun h => h.1 hnull
  by_cases hanon : flags &&& 2 = 0
  · rw [if_neg hnull, if_neg (not_not.mpr hanon)]
    simp only [hanon, ne_eq, hnull, not_false_eq_true, true_and]
    cases hstream : k.getStream fd with
    | none => simp
    | some stream =>
        simp only [Option.some.injEq, exists_eq_left']
        by_cases htype : stream.type = streamTypeFile
        · by_cases hoffset : offset &&& 0xFFF = 0
          · rw [if_neg (not_not.mpr htype), if_neg (not_not.mpr hoffset)]
            exact iff_of_false haddr fun h => h.2 hoffset
          · rw [if_neg (not_not.mpr htype), if_pos hoffset]
            exact iff_of_true rfl ⟨htype, hoffset⟩
        · -- `-EBADF` is another value
          rw [if_pos htype]
          exact iff_of_false (by decide) fun h => htype h.1
  · rw [if_neg hnull, if_pos hanon]
    exact iff_of_false haddr fun h => hanon h.2.1

/-! ## §6. When the check does its work. -/

theorem munmapRight_iff (ptr length : Arg) :
    MunmapRight ptr length ↔ ¬ (StartsInUser ptr ∧ SizeWraps length) := by
  unfold MunmapRight
  rw [Ne, munmap_einval_iff, not_outsideUser_iff]
  constructor
  · -- the size is taken for 0, so the call goes on
    intro h ⟨hstarts, hwraps⟩
    exact not_inUser_of_wraps hwraps (h ⟨hstarts, Or.inl hwraps⟩).1
  · intro h ⟨hstarts, hin⟩
    have hfits : ¬ SizeWraps length := fun hwraps => h ⟨hstarts, hwraps⟩
    exact ⟨hin.resolve_left hfits, munmapKeys_exact ptr length⟩

/-- A hint in the lowest page is rounded down to "no hint". -/
theorem pageOf_eq_zero_iff (ptr : Arg) : pageOf ptr = 0 ↔ pageBase ptr = 0 := by
  rw [← toNat_pageOf, ← BitVec.toNat_inj]
  rfl

theorem mmapRight_iff {N : Type} (k : Kernel N) (ptr length prot flags fd offset : Arg) :
    MmapRight k ptr length prot flags fd offset
      ↔ ptr = 0 ∨ OffsetRefused k prot flags fd offset
        ∨ (pageBase ptr ≠ 0 ∧ ¬ (StartsInUser ptr ∧ SizeWraps length)) := by
  have hchecked := not_outsideUser_iff ptr length
  unfold MmapRight
  rw [Ne, Ne, mmap_einval_iff, Ne, pageOf_eq_zero_iff]
  constructor
  · intro h
    by_cases hnull : ptr = 0
    · exact Or.inl hnull
    by_cases hoffset : OffsetRefused k prot flags fd offset
    · exact Or.inr (Or.inl hoffset)
    refine Or.inr (Or.inr ⟨fun hzero => ?_, fun ⟨hstarts, hwraps⟩ => ?_⟩)
    · -- the check is skipped, and the range begins below `MMAP_MIN_ADDR`
      have hin := (h hnull fun hout => hout.elim (fun hout => hout.1 hzero) hoffset).1
      have habove := hin.above
      rw [hzero] at habove
      exact absurd habove (by decide)
    · have hpasses := hchecked.mpr ⟨hstarts, Or.inl hwraps⟩
      have hin := (h hnull fun hout => hout.elim (fun hout => hpasses hout.2) hoffset).1
      exact not_inUser_of_wraps hwraps hin
  · rintro (hnull | hoffset | ⟨hbase, hfits⟩) hptr hvalue
    · exact absurd hnull hptr
    · exact absurd (Or.inr hoffset) hvalue
    · have hpasses : ¬ OutsideUser (pageOf ptr) (pageLen length) :=
        fun hout => hvalue (Or.inl ⟨hbase, hout⟩)
      obtain ⟨hstarts, hin⟩ := hchecked.mp hpasses
      have hexact : ¬ SizeWraps length := fun hwraps => hfits ⟨hstarts, hwraps⟩
      exact ⟨hin.resolve_left hexact, mmapKeys_exact k ptr length prot flags fd offset⟩

/-- **What `mmap` and `munmap` let through lies in the user half EXACTLY WHEN the
size does not wrap**; `mmap` also needs a hint that is not rounded down to 0. -/
theorem range_checked_iff {N : Type} (k : Kernel N) (ptr length prot flags fd offset : Arg) :
    (MunmapRight ptr length ↔ ¬ (StartsInUser ptr ∧ SizeWraps length))
      ∧ (MmapRight k ptr length prot flags fd offset
        ↔ ptr = 0 ∨ OffsetRefused k prot flags fd offset
          ∨ (pageBase ptr ≠ 0 ∧ ¬ (StartsInUser ptr ∧ SizeWraps length))) :=
  ⟨munmapRight_iff ptr length, mmapRight_iff k ptr length prot flags fd offset⟩

/-- `munmap(0x100000, 2^64 - 1)` goes through all `2^52` pages. -/
theorem munmap_everything :
    syscallMunmap 0x100000 0xFFFFFFFFFFFFFFFF = .returns 0
      ∧ ¬ MunmapRight 0x100000 0xFFFFFFFFFFFFFFFF := by
  have hreturns : syscallMunmap 0x100000 0xFFFFFFFFFFFFFFFF = .returns 0 := by
    unfold syscallMunmap
    rw [if_neg (by decide)]
  refine ⟨hreturns, fun h => ?_⟩
  have hin := (h (by rw [hreturns]; exact returns_ne_errno (by decide) _)).1
  have hwraps : SizeWraps 0xFFFFFFFFFFFFFFFF := by
    unfold SizeWraps
    decide
  exact not_inUser_of_wraps hwraps hin

end MierOS.Tasking.Syscalls
