/-
  MierOS.Tasking.ExecSegments
  **THE SEGMENTS OF A NEW PROGRAM**: how `Process::execve` reads the program
  headers of an ELF file and maps each `PT_LOAD` header.

  The pages with file contents are counted from the file offset, all pages from
  the address.  Their difference, on `size_t`, is the number of anonymous pages,
  and no header is rejected for what these counts come to.

  Main results: `fileKeys_loadHeader`, `anonKeys_loadHeader`, `laidOut_iff`,
  `exec_segments_iff`.
-/
import MierOS.Lib.ByteWrites
import MierOS.Tasking.Mmap
import Mathlib.Data.List.Nodup

namespace MierOS.Tasking.ExecSegments

open Lib (ofBytes wordBytes)
open Tasking.Syscalls

/-! ## §1. The file. -/

/-- What `stream.read(_, length)` gives at this position of the file. -/
def fileRead (file : List (BitVec 8)) (position length : Nat) : List (BitVec 8) :=
  (file.drop position).take length

/-- A field of `length` bytes. -/
def field (file : List (BitVec 8)) (position length : Nat) : Nat :=
  ofBytes (fileRead file position length)

/-- `validElf`. -/
def validElf : List (BitVec 8) := [0x7F, 0x45, 0x4C, 0x46, 2, 1, 1, 0]

/-- `ET_DYN`. -/
def etDyn : BitVec 16 := 3

/-- `PT_LOAD`. -/
def ptLoad : BitVec 32 := 1

/-- `PIE_START`. -/
def pieStart : Arg := 0x48000000

/-- An `Elf64_Phdr`; `execve` does not look at `paddr`. -/
structure Phdr where
  type : BitVec 32
  flags : BitVec 32
  offset : Arg
  vaddr : Arg
  fileSize : Arg
  memSize : Arg
  alignment : Arg
  deriving Repr, DecidableEq

section File

variable (file : List (BitVec 8))

/-- `header.type`. -/
def headerType : BitVec 16 := .ofNat 16 (field file 16 2)

/-- `header.phdr_offset`. -/
def phdrOffset : Arg := .ofNat 64 (field file 32 8)

/-- `header.phdr_entry_count`. -/
def phdrEntryCount : BitVec 16 := .ofNat 16 (field file 56 2)

/-- The file as the checks of `execve` see it: no read fails, and one behind the
end of the file is short. -/
def execFile : ExecFile where
  openResult := .ok ()
  header := .ok (.ofNat 64 (fileRead file 0 64).length)
  validElf := fileRead file 0 8 = validElf
  type := headerType file
  phdrEntryCount := phdrEntryCount file
  seekResult := .ok (phdrOffset file)
  programHeaders := .ok
    (.ofNat 64 (fileRead file (phdrOffset file).toNat ((phdrEntryCount file).toNat * 56)).length)
  storage := 0

/-- `programHeaders[i]`. -/
def programHeader (i : Nat) : Phdr :=
  let start := (phdrOffset file).toNat + i * 56
  { type := .ofNat 32 (field file start 4)
    flags := .ofNat 32 (field file (start + 4) 4)
    offset := .ofNat 64 (field file (start + 8) 8)
    vaddr := .ofNat 64 (field file (start + 16) 8)
    fileSize := .ofNat 64 (field file (start + 32) 8)
    memSize := .ofNat 64 (field file (start + 40) 8)
    alignment := .ofNat 64 (field file (start + 48) 8) }

/-- `programHeaders`. -/
def programHeaders : List Phdr :=
  (List.range (phdrEntryCount file).toNat).map (programHeader file)

/-- `base`. -/
def loadBase : Arg := if headerType file = etDyn then pieStart else 0

end File

/-! ## §2. The loop over the program headers. -/

/-- `FilePage(file, start_addr, offset, shared, write, execute)`. -/
structure FilePage where
  startAddr : Arg
  offset : Arg
  shared : Bool
  write : Bool
  execute : Bool
  deriving Repr, DecidableEq

/-- What `execve` calls for a program header. -/
inductive Effect where
  | assertNotReached (msg : String)
  | filePages (addr length : Arg) (page : FilePage)
  | memset (addr : Arg) (value : BitVec 8) (count : Arg)
  | allocPages (addr length : Arg) (flags prot : Nat)
  deriving Repr, DecidableEq

/-- `MMAP_FLAG_ZERO`, `MMAP_PROT_WRITE` and `MMAP_PROT_EXEC`. -/
def mmapFlagZero : Nat := 8
def mmapProtWrite : Nat := 2
def mmapProtExec : Nat := 4

namespace Phdr

variable (header : Phdr)

/-- `alignedMemSize`. -/
def alignedMemSize : Arg := header.memSize + (header.vaddr &&& 0xFFF)

/-- `alignedFileSize`. -/
def alignedFileSize : Arg := header.fileSize + (header.offset &&& 0xFFF)

/-- `pageCount`, rounded as `mmap` rounds. -/
def pageCount : Arg := pageLen header.alignedMemSize

/-- `filePages`. -/
def filePages : Arg := pageLen header.alignedFileSize

/-- `pagesLeft`. -/
def pagesLeft : Arg := header.pageCount - header.filePages

/-- `prot` of the anonymous pages. -/
def prot : Nat :=
  let prot := 1
  let prot := prot ||| (if header.flags &&& 2 ≠ 0 then mmapProtWrite else 0)
  prot ||| (if header.flags &&& 1 ≠ 0 then mmapProtExec else 0)

/-- Where the file contents end. -/
def fileEnd : Arg := header.vaddr + header.fileSize

/-- `file_pages` and the `memset` of what follows on its last page. -/
def mapFile (base : Arg) : List Effect :=
  if 0 < header.filePages then
    let page : FilePage :=
      ⟨base + pageOf header.vaddr, pageOf header.offset, header.flags &&& 2 = 0,
        header.flags &&& 2 ≠ 0, header.flags &&& 1 ≠ 0⟩
    .filePages (base + pageOf header.vaddr) header.filePages page
      :: if header.alignedMemSize > header.alignedFileSize ∧ header.fileEnd &&& 0xFFF ≠ 0 then
          [.memset (base + header.vaddr + header.fileSize) 0 (4096 - (header.fileEnd &&& 0xFFF))]
        else []
  else []

/-- `alloc_pages` for the pages that are left. -/
def mapAnonymous (base : Arg) : List Effect :=
  if 0 < header.pagesLeft then
    [.allocPages (base + pageOf (header.vaddr + (header.filePages <<< 12))) header.pagesLeft
      mmapFlagZero header.prot]
  else []

end Phdr

/-- One round of the loop.  A failed assertion is a message: the round goes on. -/
def loadHeader (base : Arg) (header : Phdr) : List Effect :=
  if header.type = ptLoad then
    (if header.alignment &&& 0xFFF ≠ 0 then
      [.assertNotReached "Alignment <4096 is currently not supported"] else [])
    ++ header.mapFile base ++ header.mapAnonymous base
  else []

/-- `Process::execve` up to the end of the loop: each header with what is called
for it. -/
def execve (file : List (BitVec 8)) : Except ErrT (List (Phdr × List Effect)) :=
  match (execFile file).execve with
  | .error e => .error e
  | .ok () => .ok ((programHeaders file).map fun header =>
      (header, loadHeader (loadBase file) header))

/-! ## §3. What the loop is for. -/

/-- The pages that get file contents. -/
def fileKeys (effects : List Effect) : List Arg :=
  effects.flatMap fun
    | .filePages addr length _ => pageKeys addr length
    | _ => []

/-- The pages that get no file contents. -/
def anonKeys (effects : List Effect) : List Arg :=
  effects.flatMap fun
    | .allocPages addr length _ _ => pageKeys addr length
    | _ => []

/-- The number of pages that `size` bytes from this place of a page on take. -/
def pagesFor (size place : Arg) : Nat := (size.toNat + place.toNat % 4096 + 4095) / 4096

/-- **A segment is laid out right.** -/
structure LaidOut (base : Arg) (header : Phdr) (effects : List Effect) : Prop where
  count : header.pageCount.toNat = pagesFor header.memSize header.vaddr
  files : header.filePages.toNat = pagesFor header.fileSize header.offset
  left : header.filePages.toNat + header.pagesLeft.toNat = header.pageCount.toNat
  follows : fileKeys effects ++ anonKeys effects
    = pageKeys (base + pageOf header.vaddr) header.pageCount
  pages : ∀ key, key ∈ fileKeys effects ++ anonKeys effects
    ↔ ∃ i < header.memSize.toNat, pageOf (base + header.vaddr + BitVec.ofNat 64 i) = key
  apart : (fileKeys effects).Disjoint (anonKeys effects)

/-- The counts of a header fit: no size reaches `2^64` from where it begins in its
page, the file needs no more pages than the segment, and an empty segment begins
a page. -/
structure Phdr.Fits (header : Phdr) : Prop where
  mem : header.memSize.toNat + header.vaddr.toNat % 4096 < 18446744073709551616
  file : header.fileSize.toNat + header.offset.toNat % 4096 < 18446744073709551616
  fewer : pagesFor header.fileSize header.offset ≤ pagesFor header.memSize header.vaddr
  empty : header.memSize.toNat = 0 → header.vaddr.toNat % 4096 = 0

/-! ## §4. The pages of a header. -/

theorem fileKeys_append (l l' : List Effect) : fileKeys (l ++ l') = fileKeys l ++ fileKeys l' :=
  List.flatMap_append

theorem anonKeys_append (l l' : List Effect) : anonKeys (l ++ l') = anonKeys l ++ anonKeys l' :=
  List.flatMap_append

@[simp] theorem pageKeys_zero (addr : Arg) : pageKeys addr 0 = [] := rfl

theorem eq_zero_of_not_pos {n : Arg} (h : ¬ 0 < n) : n = 0 := by
  have hzero : (0 : Arg).toNat = 0 := rfl
  apply BitVec.eq_of_toNat_eq
  rw [BitVec.lt_def] at h
  omega

theorem fileKeys_mapFile (base : Arg) (header : Phdr) :
    fileKeys (header.mapFile base) = pageKeys (base + pageOf header.vaddr) header.filePages := by
  unfold Phdr.mapFile
  by_cases hpos : 0 < header.filePages
  · rw [if_pos hpos]
    dsimp only
    split_ifs <;> simp [fileKeys]
  · rw [if_neg hpos, eq_zero_of_not_pos hpos]
    rfl

theorem anonKeys_mapFile (base : Arg) (header : Phdr) : anonKeys (header.mapFile base) = [] := by
  unfold Phdr.mapFile
  split_ifs <;> simp [anonKeys]

theorem fileKeys_mapAnonymous (base : Arg) (header : Phdr) :
    fileKeys (header.mapAnonymous base) = [] := by
  unfold Phdr.mapAnonymous
  split_ifs <;> simp [fileKeys]

theorem anonKeys_mapAnonymous (base : Arg) (header : Phdr) :
    anonKeys (header.mapAnonymous base)
      = pageKeys (base + pageOf (header.vaddr + (header.filePages <<< 12))) header.pagesLeft := by
  unfold Phdr.mapAnonymous
  by_cases hpos : 0 < header.pagesLeft
  · rw [if_pos hpos]
    simp [anonKeys]
  · rw [if_neg hpos, eq_zero_of_not_pos hpos]
    rfl

/-- The message of a failed assertion maps nothing. -/
theorem loadHeader_keys {base : Arg} {header : Phdr} (hload : header.type = ptLoad) :
    fileKeys (loadHeader base header)
        = fileKeys (header.mapFile base) ++ fileKeys (header.mapAnonymous base)
      ∧ anonKeys (loadHeader base header)
        = anonKeys (header.mapFile base) ++ anonKeys (header.mapAnonymous base) := by
  unfold loadHeader
  rw [if_pos hload, List.append_assoc, fileKeys_append, anonKeys_append, fileKeys_append,
    anonKeys_append]
  split_ifs <;> exact ⟨rfl, rfl⟩

/-- **The pages with file contents.** -/
theorem fileKeys_loadHeader {base : Arg} {header : Phdr} (hload : header.type = ptLoad) :
    fileKeys (loadHeader base header)
      = pageKeys (base + pageOf header.vaddr) header.filePages := by
  rw [(loadHeader_keys hload).1, fileKeys_mapFile, fileKeys_mapAnonymous, List.append_nil]

/-- Whole pages do not move the beginning of a page. -/
theorem pageOf_add_pages (addr n : Arg) :
    pageOf (addr + (n <<< 12)) = pageOf addr + (n <<< 12) := by
  have haddr := addr.isLt
  apply BitVec.eq_of_toNat_eq
  rw [toNat_pageOf, BitVec.toNat_add, toNat_pageOf, BitVec.toNat_shiftLeft, Nat.shiftLeft_eq]
  unfold pageBase
  rw [BitVec.toNat_add, BitVec.toNat_shiftLeft, Nat.shiftLeft_eq]
  omega

/-- **The pages without**: they begin where those with file contents end. -/
theorem anonKeys_loadHeader {base : Arg} {header : Phdr} (hload : header.type = ptLoad) :
    anonKeys (loadHeader base header)
      = pageKeys (base + pageOf header.vaddr + (header.filePages <<< 12)) header.pagesLeft := by
  rw [(loadHeader_keys hload).2, anonKeys_mapFile, anonKeys_mapAnonymous, List.nil_append,
    pageOf_add_pages, BitVec.add_assoc]

/-! ## §5. One header. -/

/-- Two loops that follow each other are one. -/
theorem pageKeys_append (addr : Arg) {n m k : Arg} (h : n.toNat + m.toNat = k.toNat) :
    pageKeys addr n ++ pageKeys (addr + (n <<< 12)) m = pageKeys addr k := by
  unfold pageKeys
  rw [← h, List.range_add, List.map_append, List.map_map]
  refine congrArg _ (List.map_congr_left fun i _ => ?_)
  rw [Function.comp_apply, BitVec.add_assoc]
  refine congrArg (addr + ·) (BitVec.eq_of_toNat_eq ?_)
  rw [BitVec.toNat_add, toNat_pageShift, toNat_pageShift, BitVec.toNat_shiftLeft, Nat.shiftLeft_eq]
  omega

/-- Up to the whole address space no page comes twice. -/
theorem nodup_pageKeys (addr : Arg) {n : Arg} (h : n.toNat ≤ 4503599627370496) :
    (pageKeys addr n).Nodup := by
  unfold pageKeys
  refine List.Nodup.map_on (fun i hi j hj heq => ?_) List.nodup_range
  -- numbers below `2^52` that give the same bytes modulo `2^64` are equal
  have hi := List.mem_range.mp hi
  have hj := List.mem_range.mp hj
  have haddr := addr.isLt
  have hnat := congrArg BitVec.toNat heq
  rw [BitVec.toNat_add, BitVec.toNat_add, toNat_pageShift, toNat_pageShift] at hnat
  omega

/-- The page of a byte of the segment. -/
theorem pageOf_byte {base : Arg} (hbase : base.toNat % 4096 = 0) (vaddr : Arg) (i : Nat) :
    pageOf (base + vaddr + BitVec.ofNat 64 i)
      = base + pageOf vaddr + (BitVec.ofNat 64 ((vaddr.toNat % 4096 + i) / 4096) <<< 12) := by
  have hvaddr := vaddr.isLt
  have hlt := base.isLt
  apply BitVec.eq_of_toNat_eq
  rw [toNat_pageOf, BitVec.toNat_add, BitVec.toNat_add, toNat_pageOf, toNat_pageShift]
  unfold pageBase
  rw [BitVec.toNat_add, BitVec.toNat_add, BitVec.toNat_ofNat]
  omega

/-- The rounded count is the exact one as long as the size does not wrap. -/
theorem toNat_pageLen_add (size place : Arg) :
    (pageLen (size + (place &&& 0xFFF))).toNat = pagesFor size place
      ↔ size.toNat + place.toNat % 4096 < 18446744073709551616 := by
  have hsize := size.isLt
  rw [toNat_pageLen]
  unfold Syscalls.pageCount pagesFor
  rw [BitVec.toNat_add, toNat_and_low]
  omega

/-- The pages of all bytes are the first ones from the beginning on. -/
theorem mem_pages_iff {base : Arg} (hbase : base.toNat % 4096 = 0) {header : Phdr}
    (hcount : header.pageCount.toNat = pagesFor header.memSize header.vaddr)
    (hempty : header.memSize.toNat = 0 → header.vaddr.toNat % 4096 = 0) (key : Arg) :
    key ∈ pageKeys (base + pageOf header.vaddr) header.pageCount
      ↔ ∃ i < header.memSize.toNat, pageOf (base + header.vaddr + BitVec.ofNat 64 i) = key := by
  rw [mem_pageKeys, hcount]
  unfold pagesFor
  constructor
  · rintro ⟨j, hj, rfl⟩
    -- the first byte of the segment on page `j`
    refine ⟨4096 * j - header.vaddr.toNat % 4096, by omega, ?_⟩
    have hpage : (header.vaddr.toNat % 4096 + (4096 * j - header.vaddr.toNat % 4096)) / 4096
        = j := by omega
    rw [pageOf_byte hbase, hpage]
  · rintro ⟨i, hi, rfl⟩
    -- the page of byte `i` is below the rounded-up end
    refine ⟨(header.vaddr.toNat % 4096 + i) / 4096, by omega, ?_⟩
    rw [pageOf_byte hbase]

theorem toNat_pagesLeft {header : Phdr} (h : header.filePages.toNat ≤ header.pageCount.toNat) :
    header.filePages.toNat + header.pagesLeft.toNat = header.pageCount.toNat := by
  unfold Phdr.pagesLeft
  rw [BitVec.toNat_sub_of_le (BitVec.le_def.mpr h)]
  omega

/-- A header that is laid out right has counts that fit. -/
theorem LaidOut.fits {base : Arg} {header : Phdr} {effects : List Effect}
    (h : LaidOut base header effects) : header.Fits := by
  have hleft := h.left
  refine ⟨(toNat_pageLen_add _ _).mp h.count, (toNat_pageLen_add _ _).mp h.files, ?_, ?_⟩
  · rw [← h.files, ← h.count]
    omega
  · -- an empty segment has no page, so that none may be counted
    intro hzero
    have hnone : header.pageCount.toNat = 0 := by
      refine Nat.eq_zero_of_not_pos fun hpos => ?_
      have hmem : base + pageOf header.vaddr + (BitVec.ofNat 64 0 <<< 12)
          ∈ pageKeys (base + pageOf header.vaddr) header.pageCount :=
        mem_pageKeys.mpr ⟨0, hpos, rfl⟩
      rw [← h.follows, h.pages] at hmem
      obtain ⟨i, hi, _⟩ := hmem
      omega
    have hcount := h.count
    unfold pagesFor at hcount
    omega

/-- **A header whose counts fit is laid out right.** -/
theorem laidOut_of_fits {base : Arg} (hbase : base.toNat % 4096 = 0) {header : Phdr}
    (hload : header.type = ptLoad) (h : header.Fits) :
    LaidOut base header (loadHeader base header) := by
  have hcount : header.pageCount.toNat = pagesFor header.memSize header.vaddr :=
    (toNat_pageLen_add _ _).mpr h.mem
  have hfiles : header.filePages.toNat = pagesFor header.fileSize header.offset :=
    (toNat_pageLen_add _ _).mpr h.file
  have hfewer := h.fewer
  rw [← hfiles, ← hcount] at hfewer
  have hleft := toNat_pagesLeft hfewer
  have hfollows : fileKeys (loadHeader base header) ++ anonKeys (loadHeader base header)
      = pageKeys (base + pageOf header.vaddr) header.pageCount := by
    rw [fileKeys_loadHeader hload, anonKeys_loadHeader hload]
    exact pageKeys_append _ hleft
  refine ⟨hcount, hfiles, hleft, hfollows, fun key => ?_, ?_⟩
  · rw [hfollows]
    exact mem_pages_iff hbase hcount h.empty key
  · -- no key comes twice in all of them, so none is in both groups
    have hspace : header.pageCount.toNat ≤ 4503599627370496 := by
      have hmem := h.mem
      rw [hcount]
      unfold pagesFor
      omega
    have hnodup := nodup_pageKeys (base + pageOf header.vaddr) hspace
    rw [← hfollows] at hnodup
    exact (List.nodup_append'.mp hnodup).2.2

/-- **A header is laid out right EXACTLY WHEN its counts fit.** -/
theorem laidOut_iff {base : Arg} (hbase : base.toNat % 4096 = 0) {header : Phdr}
    (hload : header.type = ptLoad) :
    LaidOut base header (loadHeader base header) ↔ header.Fits :=
  ⟨LaidOut.fits, laidOut_of_fits hbase hload⟩

/-! ## §6. A file. -/

theorem loadBase_aligned (file : List (BitVec 8)) : (loadBase file).toNat % 4096 = 0 := by
  unfold loadBase
  split_ifs <;> rfl

/-- **In a file that `execve` accepts every `PT_LOAD` header is laid out right
EXACTLY WHEN the counts of each of them fit.** -/
theorem exec_segments_iff {file : List (BitVec 8)} {segments : List (Phdr × List Effect)}
    (haccepts : execve file = .ok segments) :
    (∀ s ∈ segments, s.1.type = ptLoad → LaidOut (loadBase file) s.1 s.2)
      ↔ ∀ header ∈ programHeaders file, header.type = ptLoad → header.Fits := by
  have hsegments : segments = (programHeaders file).map fun header =>
      (header, loadHeader (loadBase file) header) := by
    unfold execve at haccepts
    split at haccepts
    · exact absurd haccepts (by simp)
    · exact (Except.ok.inj haccepts).symm
  subst hsegments
  simp only [List.forall_mem_map]
  refine forall₂_congr fun header _ => forall_congr' fun hload => ?_
  exact laidOut_iff (loadBase_aligned file) hload

/-- The low bytes of a word. -/
def lowBytes (n : Nat) (value : Arg) : List (BitVec 8) := (wordBytes value).take n

/-- An executable with one segment at `0x400000`, from the file's first byte on. -/
def oneSegment (fileSize memSize : Arg) : List (BitVec 8) :=
  validElf ++ lowBytes 8 0 ++ lowBytes 2 2 ++ lowBytes 2 62 ++ lowBytes 4 1
    ++ lowBytes 8 0x400000 ++ lowBytes 8 64 ++ lowBytes 8 0 ++ lowBytes 4 0
    ++ lowBytes 2 64 ++ lowBytes 2 56 ++ lowBytes 2 1 ++ lowBytes 6 0
    -- the program header
    ++ lowBytes 4 1 ++ lowBytes 4 5 ++ lowBytes 8 0 ++ lowBytes 8 0x400000
    ++ lowBytes 8 0x400000 ++ lowBytes 8 fileSize ++ lowBytes 8 memSize ++ lowBytes 8 0x1000

/-- A segment with more bytes in memory than in the file. -/
def shortFile : Phdr := ⟨1, 5, 0, 0x400000, 0x1000, 0x2000, 0x1000⟩

/-- One page comes from the file and one is left. -/
theorem exec_segments_iff_small :
    execve (oneSegment 0x1000 0x2000) = .ok [(shortFile, loadHeader 0 shortFile)]
      ∧ LaidOut 0 shortFile (loadHeader 0 shortFile) := by
  have haccepts : execve (oneSegment 0x1000 0x2000)
      = .ok [(shortFile, loadHeader 0 shortFile)] := rfl
  have hheaders : programHeaders (oneSegment 0x1000 0x2000) = [shortFile] := rfl
  have hfits : shortFile.Fits := ⟨by decide, by decide, by decide, by decide⟩
  refine ⟨haccepts, (exec_segments_iff haccepts).mpr (fun header hheader _ => ?_) _
    (List.mem_singleton.mpr rfl) rfl⟩
  rw [hheaders, List.mem_singleton] at hheader
  exact hheader ▸ hfits

/-- A segment with more bytes in the file than in memory. -/
def longFile : Phdr := ⟨1, 5, 0, 0x400000, 0x2000, 0x1000, 0x1000⟩

/-- Two pages come from the file and one is counted: the difference is
`2^64 - 1`. -/
theorem exec_segment_wraps :
    execve (oneSegment 0x2000 0x1000) = .ok [(longFile, loadHeader 0 longFile)]
      ∧ longFile.pagesLeft = 0xFFFFFFFFFFFFFFFF
      ∧ ¬ LaidOut 0 longFile (loadHeader 0 longFile) := by
  refine ⟨rfl, rfl, fun h => ?_⟩
  have hfits := (laidOut_iff rfl rfl).mp h
  exact absurd hfits.fewer (by decide)

end MierOS.Tasking.ExecSegments
