/-
  MierOS.Ext2.Directory
  **DIRECTORIES OF EXT2**: `get_file` and `get_files` of `files.cpp`.

  Both walk over the entries of the directory's blocks, each entry telling where the next
  one begins, and both put the nodes that they make among the children of the directory.
  Nothing that the entries say is checked.

  Main results: `getFile_ends_iff`, `getFiles_ends_iff`, `directory_scans_iff`.
-/
import Mathlib.Data.List.TakeWhile
import MierOS.Ext2.Rw
import MierOS.Fs.Vfs
import MierOS.Lib.Cursor
import MierOS.Partition.Gpt
import MierOS.Stdlib.UnorderedMap

namespace MierOS.Ext2

open Lib Stdlib
open Fs (VNodeType)
open Gpt (le)

/-! ## §1. Names and nodes. -/

/-- The characters of a C string before its terminator. -/
structure CString where
  chars : List Byte
  noNul : (0 : Byte) ∉ chars
  deriving DecidableEq

/-- The C string in a buffer that these bytes and a terminator have been copied to. -/
def CString.ofBytes (bytes : List Byte) : CString :=
  ⟨bytes.takeWhile (· ≠ 0), fun h => by simpa using List.mem_takeWhile_imp h⟩

/-- `"."` and `".."`. -/
def dot : CString := ⟨[0x2e], by decide⟩
def dotDot : CString := ⟨[0x2e, 0x2e], by decide⟩

/-- What a node takes from `Inode`. -/
structure InodeFields where
  typeAndPerm : BitVec 16
  userId : BitVec 16
  groupId : BitVec 16
  createTime : BitVec 32
  accessTime : BitVec 32
  modifyTime : BitVec 32
  size : BitVec 32
  deriving Repr, DecidableEq

/-- A `VNode` of this filesystem; `inode` is the number of the inode its data holds. -/
structure FileNode where
  permissions : BitVec 16
  userId : BitVec 16
  groupId : BitVec 16
  createTime : BitVec 32
  accessTime : BitVec 32
  modifyTime : BitVec 32
  size : BitVec 32
  name : CString
  type : VNodeType
  inode : Nat
  deriving DecidableEq

/-- `inode_to_vnode_type(inode_type)`; `none` is the panic. -/
def inodeToVnodeType (inodeType : BitVec 16) : Option VNodeType :=
  if inodeType = 0x2000 then some .CHARACTER_DEVICE
  else if inodeType = 0x6000 then some .BLOCK_DEVICE
  else if inodeType = 0x4000 then some .DIRECTORY
  else if inodeType = 0x8000 then some .FILE
  else if inodeType = 0xA000 then some .LINK
  else none

/-- `std::make_shared<VNode>(inode->type_and_perm & 0xFFF, ..., name, type, fs)` over
`read_inode(mi, number)`. -/
def newNode (readInode : Nat → InodeFields) (number : Nat) (name : CString) : Option FileNode :=
  let inode := readInode number
  (inodeToVnodeType (inode.typeAndPerm &&& 0xF000)).map fun type =>
    { permissions := inode.typeAndPerm &&& 0xFFF
      userId := inode.userId
      groupId := inode.groupId
      createTime := inode.createTime
      accessTime := inode.accessTime
      modifyTime := inode.modifyTime
      size := inode.size
      name := name
      type := type
      inode := number }

/-- `f_children`. -/
abbrev Children := UnorderedMap CString FileNode

/-- The children of a new node. -/
def noChildren : Children := UnorderedMap.ofCapacity UnorderedMap.initialBucketSize

/-- What a function comes to: it returns, it panics, or it reads outside the block. -/
inductive Outcome (ρ : Type) where
  | returns (r : ρ)
  | panics
  | leavesBlock
  deriving DecidableEq

/-! ## §2. Entries. -/

section Entry

variable {S ρ : Type} (blockSize : Nat) (b : Nat → Byte)

/-- A field of `n` bytes at `o`. -/
def load (o n : Nat) : Option Nat := if o + n ≤ blockSize then some (le b o n) else none

/-- `memcpy` of `n` bytes from `o` on. -/
def loadBytes : Nat → Nat → Option (List Byte)
  | _, 0 => some []
  | o, n + 1 => if o < blockSize then (loadBytes (o + 1) n).map (b o :: ·) else none

/-- `strncmp(chars, b + o, length of chars) == 0`. -/
def strncmp : List Byte → Nat → Option Bool
  | [], _ => some true
  | c :: chars, o =>
      if o < blockSize then if c = b o then strncmp chars (o + 1) else some false else none

/-- What a visit does with what it has read. -/
def reading {α : Type} (x : Option α) (k : α → Visit S (Outcome ρ)) : Visit S (Outcome ρ) :=
  match x with
  | some a => k a
  | none => .stop .leavesBlock

/-- `offset += dir_ent->entry_size`. -/
def nextEntry (o : Nat) (s : S) : Visit S (Outcome ρ) :=
  reading (load blockSize b (o + 4) 2) fun entrySize => .move entrySize s

/-- The body of the loop of `get_file`. -/
def fileEntry (readInode : Nat → InodeFields) (filename : CString) (o : Nat) (s : Unit) :
    Visit Unit (Outcome FileNode) :=
  reading (load blockSize b o 4) fun inode =>
    if inode = 0 then nextEntry blockSize b o s
    else
      reading (load blockSize b (o + 6) 1) fun nameLength =>
        if filename.chars.length ≠ nameLength then nextEntry blockSize b o s
        else
          reading (strncmp blockSize b filename.chars (o + 8)) fun same =>
            if ¬ same then nextEntry blockSize b o s
            else
              match newNode readInode inode filename with
              | none => .stop .panics
              | some node => .stop (.returns node)

/-- The body of the loop of `get_files`, over the children and `nodes`. -/
def filesEntry (hash : CString → Nat) (readInode : Nat → InodeFields) (o : Nat)
    (s : Children × List FileNode) :
    Visit (Children × List FileNode) (Outcome (List FileNode × Children)) :=
  reading (load blockSize b o 4) fun inode =>
    if inode = 0 then nextEntry blockSize b o s
    else
      reading (load blockSize b (o + 6) 1) fun nameLength =>
        reading (loadBytes blockSize b (o + 8) nameLength) fun bytes =>
          let nameCp := CString.ofBytes bytes
          if nameCp = dot ∨ nameCp = dotDot then nextEntry blockSize b o s
          else if s.1.find hash nameCp = s.1.endIter then
            match newNode readInode inode nameCp with
            | none => .stop .panics
            | some node =>
                nextEntry blockSize b o ((s.1.insert hash node.name node).2, s.2 ++ [node])
          else nextEntry blockSize b o s

end Entry

/-! ## §3. The scans. -/

section Scans

variable (mi : MountInfo) (readInode : Nat → InodeFields) (hash : CString → Nat)

/-- Byte `j` of `read_cache_block(block)->ptr()`. -/
def MountInfo.cacheByte (mi : MountInfo) (block j : Nat) : Byte :=
  BitVec.ofNat 8 (mi.cacheWord block (j / 4) >>> (8 * (j % 4)))

/-- Byte `o` of block `blkIdx` of a directory. -/
def dirByte (mi : MountInfo) (inode : Inode) (blkIdx o : Nat) : Byte :=
  mi.cacheByte (getInodeBlock mi inode blkIdx) o

/-- `inode->size >> (10 + blocks_size)`. -/
def blockCount (mi : MountInfo) (inode : Inode) : Nat :=
  inode.size.toNat >>> (10 + mi.blocksSize)

/-- `get_file(minor, root, filename, flags)`, where `root` is the node of `inode` with these
children: the value returned, and the children. -/
def getFile (fuel : Nat) (inode : Inode) (children : Children) (filename : CString) :
    Option (Outcome (Except Errno FileNode × Children)) :=
  match scanSegments (fun i => fileEntry mi.blockSize (dirByte mi inode i) readInode filename)
      mi.blockSize fuel (blockCount mi inode) 0 () with
  | none => none
  | some (.ok _) => some (.returns (.error .ENOENT, children))
  | some (.error (.returns node)) =>
      some (.returns (.ok node, (children.insert hash node.name node).2))
  | some (.error .panics) => some .panics
  | some (.error .leavesBlock) => some .leavesBlock

/-- `get_files(minor, root, flags)`: the list returned, and the children. -/
def getFiles (fuel : Nat) (inode : Inode) (children : Children) :
    Option (Outcome (List FileNode × Children)) :=
  match scanSegments (fun i => filesEntry mi.blockSize (dirByte mi inode i) hash readInode)
      mi.blockSize fuel (blockCount mi inode) 0 (children, children.entries.map Prod.snd) with
  | none => none
  | some (.ok (children, nodes)) => some (.returns (nodes, children))
  | some (.error outcome) => some outcome

end Scans

/-! ## §4. What the entries are read for. -/

section Entry

variable {S ρ α : Type} {blockSize : Nat} {b : Nat → Byte} {o n : Nat}

theorem load_eq_some_iff {v : Nat} :
    load blockSize b o n = some v ↔ o + n ≤ blockSize ∧ v = le b o n := by
  unfold load
  by_cases h : o + n ≤ blockSize
  · rw [if_pos h, Option.some.injEq]
    exact ⟨fun hv => ⟨h, hv.symm⟩, fun hv => hv.2.symm⟩
  · rw [if_neg h]
    exact ⟨fun hv => (by cases hv), fun hv => absurd hv.1 h⟩

/-- The bytes from `o` on. -/
def bytesAt (b : Nat → Byte) (o n : Nat) : List Byte := (List.range n).map fun i => b (o + i)

theorem bytesAt_succ (b : Nat → Byte) (o n : Nat) :
    bytesAt b o (n + 1) = b o :: bytesAt b (o + 1) n := by
  unfold bytesAt
  rw [List.range_succ_eq_map, List.map_cons, List.map_map]
  refine congrArg _ (List.map_congr_left fun i _ => ?_)
  show b (o + (i + 1)) = b (o + 1 + i)
  rw [Nat.add_assoc, Nat.add_comm 1 i]

theorem loadBytes_eq_some_iff {bytes : List Byte} :
    loadBytes blockSize b o n = some bytes
      ↔ (n = 0 ∨ o + n ≤ blockSize) ∧ bytes = bytesAt b o n := by
  induction n generalizing o bytes with
  | zero =>
      show some [] = some bytes ↔ _
      rw [Option.some.injEq]
      exact ⟨fun h => ⟨Or.inl rfl, h.symm⟩, fun h => h.2.symm⟩
  | succ n ih =>
      unfold loadBytes
      by_cases ho : o < blockSize
      · rw [if_pos ho, Option.map_eq_some_iff, bytesAt_succ]
        constructor
        · rintro ⟨rest, hrest, rfl⟩
          obtain ⟨hin, rfl⟩ := ih.mp hrest
          exact ⟨Or.inr (by omega), rfl⟩
        · rintro ⟨hin, rfl⟩
          exact ⟨_, ih.mpr ⟨by omega, rfl⟩, rfl⟩
      · rw [if_neg ho]
        exact ⟨fun h => (by cases h), fun h => by omega⟩

/-- These characters stand at `o`. -/
def NameMatches (blockSize : Nat) (b : Nat → Byte) : List Byte → Nat → Prop
  | [], _ => True
  | c :: chars, o => o < blockSize ∧ c = b o ∧ NameMatches blockSize b chars (o + 1)

/-- The first byte from `o` on that is not these characters' lies in the block. -/
def NameDiffers (blockSize : Nat) (b : Nat → Byte) : List Byte → Nat → Prop
  | [], _ => False
  | c :: chars, o => o < blockSize ∧ (c = b o → NameDiffers blockSize b chars (o + 1))

theorem strncmp_true_iff {chars : List Byte} :
    strncmp blockSize b chars o = some true ↔ NameMatches blockSize b chars o := by
  induction chars generalizing o with
  | nil => exact ⟨fun _ => trivial, fun _ => rfl⟩
  | cons c chars ih =>
      unfold strncmp NameMatches
      by_cases ho : o < blockSize
      · by_cases hc : c = b o
        · rw [if_pos ho, if_pos hc, ih]
          exact ⟨fun h => ⟨ho, hc, h⟩, fun h => h.2.2⟩
        · rw [if_pos ho, if_neg hc]
          exact ⟨fun h => (by cases h), fun h => absurd h.2.1 hc⟩
      · rw [if_neg ho]
        exact ⟨fun h => (by cases h), fun h => absurd h.1 ho⟩

theorem strncmp_false_iff {chars : List Byte} :
    strncmp blockSize b chars o = some false ↔ NameDiffers blockSize b chars o := by
  induction chars generalizing o with
  | nil => exact ⟨fun h => (by cases h), fun h => absurd h id⟩
  | cons c chars ih =>
      unfold strncmp NameDiffers
      by_cases ho : o < blockSize
      · by_cases hc : c = b o
        · rw [if_pos ho, if_pos hc, ih]
          exact ⟨fun h => ⟨ho, fun _ => h⟩, fun h => h.2 hc⟩
        · rw [if_pos ho, if_neg hc]
          exact ⟨fun _ => ⟨ho, fun h => absurd h hc⟩, fun _ => rfl⟩
      · rw [if_neg ho]
        exact ⟨fun h => (by cases h), fun h => absurd h.1 ho⟩

/-- A visit that stops the scan, but not by reading outside the block. -/
def Stops (v : Visit S (Outcome ρ)) : Prop := ∃ r, v = .stop r ∧ r ≠ .leavesBlock

theorem not_stops_move (n : Nat) (s : S) : ¬ Stops (.move n s : Visit S (Outcome ρ)) := by
  intro ⟨r, h, _⟩
  cases h

theorem not_stops_leavesBlock : ¬ Stops (.stop .leavesBlock : Visit S (Outcome ρ)) := by
  intro ⟨r, h, hr⟩
  cases h
  exact hr rfl

theorem reading_move_iff {x : Option α} {k : α → Visit S (Outcome ρ)} {s : S} :
    reading x k = .move n s ↔ ∃ a, x = some a ∧ k a = .move n s := by
  cases x with
  | none => exact ⟨fun h => (by cases h), fun ⟨a, h, _⟩ => (by cases h)⟩
  | some a => exact ⟨fun h => ⟨a, rfl, h⟩, fun ⟨a', h, h'⟩ => Option.some.inj h ▸ h'⟩

theorem nextEntry_move_iff {s s' : S} :
    (nextEntry blockSize b o s : Visit S (Outcome ρ)) = .move n s'
      ↔ o + 6 ≤ blockSize ∧ n = le b (o + 4) 2 ∧ s' = s := by
  unfold nextEntry
  rw [reading_move_iff]
  constructor
  · intro ⟨v, hload, hmove⟩
    obtain ⟨hin, rfl⟩ := load_eq_some_iff.mp hload
    cases hmove
    exact ⟨hin, rfl, rfl⟩
  · rintro ⟨hin, rfl, rfl⟩
    exact ⟨_, load_eq_some_iff.mpr ⟨hin, rfl⟩, rfl⟩

theorem not_stops_nextEntry (s : S) : ¬ Stops (nextEntry blockSize b o s : Visit S (Outcome ρ)) := by
  unfold nextEntry
  cases load blockSize b (o + 4) 2 with
  | none => exact not_stops_leavesBlock
  | some v => exact not_stops_move v s

end Entry

/-! ## §5. The contents that the scans get through. -/

/-- An entry with this name, in the block as far as it is read. -/
structure FileFound (blockSize : Nat) (b : Nat → Byte) (filename : CString) (o : Nat) : Prop where
  header : o + 7 ≤ blockSize
  live : le b o 4 ≠ 0
  length : filename.chars.length = le b (o + 6) 1
  name : NameMatches blockSize b filename.chars (o + 8)

/-- An entry with another name or without an inode, in the block as far as it is read. -/
structure FilePassed (blockSize : Nat) (b : Nat → Byte) (filename : CString) (o : Nat) : Prop where
  header : o + 6 ≤ blockSize
  other : le b o 4 = 0 ∨ o + 7 ≤ blockSize
    ∧ (filename.chars.length ≠ le b (o + 6) 1
      ∨ NameDiffers blockSize b filename.chars (o + 8))

/-- The name of an entry. -/
def entryName (b : Nat → Byte) (o : Nat) : CString :=
  CString.ofBytes (bytesAt b (o + 8) (le b (o + 6) 1))

/-- An entry with an inode whose header and name lie in the block. -/
structure NameInside (blockSize : Nat) (b : Nat → Byte) (o : Nat) : Prop where
  header : o + 7 ≤ blockSize
  live : le b o 4 ≠ 0
  name : le b (o + 6) 1 = 0 ∨ o + 8 + le b (o + 6) 1 ≤ blockSize

/-- `get_files` makes a node for this name. -/
structure Unlisted (listed : Set CString) (name : CString) : Prop where
  dot : name ≠ dot
  dotDot : name ≠ dotDot
  new : name ∉ listed

/-- The type of the inode is one that nodes have. -/
def KnownType (readInode : Nat → InodeFields) (number : Nat) : Prop :=
  inodeToVnodeType ((readInode number).typeAndPerm &&& 0xF000) ≠ none

/-- What becomes of the names listed at an entry that `get_files` passes. -/
inductive FilesPassed (blockSize : Nat) (readInode : Nat → InodeFields) (b : Nat → Byte) (o : Nat)
    (listed : Set CString) : Set CString → Prop
  | free : o + 6 ≤ blockSize → le b o 4 = 0 → FilesPassed blockSize readInode b o listed listed
  | known : NameInside blockSize b o → ¬ Unlisted listed (entryName b o) →
      FilesPassed blockSize readInode b o listed listed
  | makes : NameInside blockSize b o → Unlisted listed (entryName b o) →
      KnownType readInode (le b o 4) →
      FilesPassed blockSize readInode b o listed (insert (entryName b o) listed)

section Visits

variable {blockSize : Nat} {b : Nat → Byte} {readInode : Nat → InodeFields}
  {hash : CString → Nat} {o n : Nat}

theorem newNode_eq_none_iff {number : Nat} {name : CString} :
    newNode readInode number name = none ↔ ¬ KnownType readInode number := by
  unfold newNode KnownType
  rw [Option.map_eq_none_iff, not_not]

theorem newNode_name {number : Nat} {name : CString} {node : FileNode}
    (h : newNode readInode number name = some node) : node.name = name := by
  obtain ⟨type, _, rfl⟩ := Option.map_eq_some_iff.mp h
  rfl

theorem newNode_inode {number : Nat} {name : CString} {node : FileNode}
    (h : newNode readInode number name = some node) : node.inode = number := by
  obtain ⟨type, _, rfl⟩ := Option.map_eq_some_iff.mp h
  rfl

/-- The entry has another name or no inode, whatever its size. -/
def OtherName (blockSize : Nat) (b : Nat → Byte) (filename : CString) (o : Nat) : Prop :=
  le b o 4 = 0 ∨ o + 7 ≤ blockSize
    ∧ (filename.chars.length ≠ le b (o + 6) 1
      ∨ NameDiffers blockSize b filename.chars (o + 8))

theorem fileEntry_other {filename : CString} (hin : o + 4 ≤ blockSize)
    (hother : OtherName blockSize b filename o) (s : Unit) :
    fileEntry blockSize b readInode filename o s = nextEntry blockSize b o s := by
  unfold fileEntry
  rw [load_eq_some_iff.mpr ⟨hin, rfl⟩]
  by_cases hfree : le b o 4 = 0
  · exact if_pos hfree
  · obtain ⟨hheader, hname⟩ := hother.resolve_left hfree
    have hload : load blockSize b (o + 6) 1 = some (le b (o + 6) 1) :=
      load_eq_some_iff.mpr ⟨hheader, rfl⟩
    show (if le b o 4 = 0 then _ else reading (load blockSize b (o + 6) 1) _) = _
    rw [if_neg hfree, hload]
    -- the characters are compared only when the lengths agree
    by_cases hlength : filename.chars.length = le b (o + 6) 1
    · have hdiffers := hname.resolve_left (not_not.mpr hlength)
      show (if _ then _ else reading (strncmp blockSize b filename.chars (o + 8)) _) = _
      rw [if_neg (not_not.mpr hlength), strncmp_false_iff.mpr hdiffers]
      rfl
    · exact if_pos hlength

theorem fileEntry_found {filename : CString} (h : FileFound blockSize b filename o) (s : Unit) :
    fileEntry blockSize b readInode filename o s
      = match newNode readInode (le b o 4) filename with
        | none => .stop .panics
        | some node => .stop (.returns node) := by
  have hheader := h.header
  have hload : load blockSize b (o + 6) 1 = some (le b (o + 6) 1) :=
    load_eq_some_iff.mpr ⟨hheader, rfl⟩
  unfold fileEntry
  rw [load_eq_some_iff.mpr ⟨by omega, rfl⟩]
  show (if le b o 4 = 0 then _ else reading (load blockSize b (o + 6) 1) _) = _
  rw [if_neg h.live, hload]
  show (if _ then _ else reading (strncmp blockSize b filename.chars (o + 8)) _) = _
  rw [if_neg (not_not.mpr h.length), strncmp_true_iff.mpr h.name]
  rfl

/-- An entry that is neither makes the scan leave the block. -/
theorem fileEntry_leaves {filename : CString}
    (hother : ¬ (o + 4 ≤ blockSize ∧ OtherName blockSize b filename o))
    (hfound : ¬ FileFound blockSize b filename o) (s : Unit) :
    fileEntry blockSize b readInode filename o s = .stop .leavesBlock := by
  unfold fileEntry
  by_cases hin : o + 4 ≤ blockSize
  · have hnot : ¬ OtherName blockSize b filename o := fun h => hother ⟨hin, h⟩
    have hlive : le b o 4 ≠ 0 := fun hzero => hnot (Or.inl hzero)
    rw [load_eq_some_iff.mpr ⟨hin, rfl⟩]
    show (if le b o 4 = 0 then _ else reading (load blockSize b (o + 6) 1) _) = _
    rw [if_neg hlive]
    by_cases hheader : o + 7 ≤ blockSize
    · have hlength : filename.chars.length = le b (o + 6) 1 :=
        not_not.mp fun hne => hnot (Or.inr ⟨hheader, Or.inl hne⟩)
      -- a comparison with a result would make the entry one or the other
      have hname : strncmp blockSize b filename.chars (o + 8) = none := by
        cases hsame : strncmp blockSize b filename.chars (o + 8) with
        | none => rfl
        | some same =>
            cases same with
            | false => exact absurd (Or.inr ⟨hheader, Or.inr (strncmp_false_iff.mp hsame)⟩) hnot
            | true => exact absurd ⟨hheader, hlive, hlength, strncmp_true_iff.mp hsame⟩ hfound
      have hload : load blockSize b (o + 6) 1 = some (le b (o + 6) 1) :=
        load_eq_some_iff.mpr ⟨hheader, rfl⟩
      rw [hload]
      show (if _ then _ else reading (strncmp blockSize b filename.chars (o + 8)) _) = _
      rw [if_neg (not_not.mpr hlength), hname]
      rfl
    · have hload : load blockSize b (o + 6) 1 = none := if_neg hheader
      rw [hload]
      rfl
  · have hinode : load blockSize b o 4 = none := if_neg hin
    rw [hinode]
    rfl

theorem fileEntry_move_iff {filename : CString} {s s' : Unit} :
    fileEntry blockSize b readInode filename o s = .move n s'
      ↔ FilePassed blockSize b filename o ∧ n = le b (o + 4) 2 := by
  by_cases hother : o + 4 ≤ blockSize ∧ OtherName blockSize b filename o
  · rw [fileEntry_other hother.1 hother.2, nextEntry_move_iff]
    exact ⟨fun h => ⟨⟨h.1, hother.2⟩, h.2.1⟩, fun h => ⟨h.1.header, h.2, rfl⟩⟩
  · have hpassed : ¬ FilePassed blockSize b filename o := fun h =>
      hother ⟨Nat.le_trans (Nat.add_le_add_left (by decide) o) h.header, h.other⟩
    by_cases hfound : FileFound blockSize b filename o
    · rw [fileEntry_found hfound]
      refine ⟨fun hmove => ?_, fun h => absurd h.1 hpassed⟩
      cases hnode : newNode readInode (le b o 4) filename <;> rw [hnode] at hmove <;>
        cases hmove
    · rw [fileEntry_leaves hother hfound]
      exact ⟨fun hmove => (by cases hmove), fun h => absurd h.1 hpassed⟩

theorem fileEntry_stops_iff {filename : CString} {s : Unit} :
    Stops (fileEntry blockSize b readInode filename o s) ↔ FileFound blockSize b filename o := by
  by_cases hfound : FileFound blockSize b filename o
  · rw [fileEntry_found hfound]
    refine ⟨fun _ => hfound, fun _ => ?_⟩
    cases newNode readInode (le b o 4) filename with
    | none => exact ⟨_, rfl, fun h => (by cases h)⟩
    | some node => exact ⟨_, rfl, fun h => (by cases h)⟩
  · refine ⟨fun hstops => ?_, fun h => absurd h hfound⟩
    by_cases hother : o + 4 ≤ blockSize ∧ OtherName blockSize b filename o
    · rw [fileEntry_other hother.1 hother.2] at hstops
      exact absurd hstops (not_stops_nextEntry s)
    · rw [fileEntry_leaves hother hfound] at hstops
      exact absurd hstops not_stops_leavesBlock

/-- The names of the children. -/
def listedNames (hash : CString → Nat) (children : Children) : Set CString :=
  {name | children.at hash name ≠ none}

theorem find_eq_end_iff {children : Children} {name : CString} :
    children.find hash name = children.endIter ↔ name ∉ listedNames hash children := by
  show _ ↔ ¬ children.at hash name ≠ none
  rw [not_not]
  exact UnorderedMap.find_eq_end_iff children name

theorem listedNames_insert {children : Children} (hwf : children.WF hash) {node : FileNode}
    (hnew : node.name ∉ listedNames hash children) :
    listedNames hash (children.insert hash node.name node).2
      = insert node.name (listedNames hash children) := by
  have hnone : children.at hash node.name = none := not_not.mp hnew
  ext name
  show (children.insert hash node.name node).2.at hash name ≠ none ↔ _
  rw [UnorderedMap.at_insert hwf node hnone]
  by_cases hname : name = node.name
  · rw [if_pos hname]
    exact ⟨fun _ => Or.inl hname, fun _ h => by cases h⟩
  · rw [if_neg hname]
    exact ⟨Or.inr, fun h => h.resolve_left hname⟩

/-- The invariant of the scan of `get_files`. -/
def ChildrenOk (hash : CString → Nat) (s : Children × List FileNode) : Prop := s.1.WF hash

/-- What the visits of an entry with a name depend on. -/
theorem unlisted_iff {children : Children} {name : CString} :
    Unlisted (listedNames hash children) name
      ↔ ¬ (name = dot ∨ name = dotDot) ∧ children.find hash name = children.endIter := by
  rw [find_eq_end_iff]
  constructor
  · exact fun h => ⟨fun hdots => hdots.elim h.dot h.dotDot, h.new⟩
  · exact fun h => ⟨fun hdot => h.1 (Or.inl hdot), fun hdot => h.1 (Or.inr hdot), h.2⟩

/-- **One visit of `get_files`** at an entry with a name, by what the name is. -/
theorem filesEntry_named (h : NameInside blockSize b o) (s : Children × List FileNode) :
    filesEntry blockSize b hash readInode o s
      = if entryName b o = dot ∨ entryName b o = dotDot then nextEntry blockSize b o s
        else if s.1.find hash (entryName b o) = s.1.endIter then
          match newNode readInode (le b o 4) (entryName b o) with
          | none => .stop .panics
          | some node => nextEntry blockSize b o ((s.1.insert hash node.name node).2, s.2 ++ [node])
        else nextEntry blockSize b o s := by
  have hheader := h.header
  have hinode : load blockSize b o 4 = some (le b o 4) :=
    load_eq_some_iff.mpr ⟨by omega, rfl⟩
  have hlength : load blockSize b (o + 6) 1 = some (le b (o + 6) 1) :=
    load_eq_some_iff.mpr ⟨hheader, rfl⟩
  unfold filesEntry
  rw [hinode, hlength]
  show (if le b o 4 = 0 then _
    else reading (loadBytes blockSize b (o + 8) (le b (o + 6) 1)) _) = _
  rw [if_neg h.live, loadBytes_eq_some_iff.mpr ⟨h.name, rfl⟩]
  rfl

theorem filesEntry_listed (h : NameInside blockSize b o) {s : Children × List FileNode}
    (hlisted : ¬ Unlisted (listedNames hash s.1) (entryName b o)) :
    filesEntry blockSize b hash readInode o s = nextEntry blockSize b o s := by
  rw [filesEntry_named h]
  by_cases hdots : entryName b o = dot ∨ entryName b o = dotDot
  · exact if_pos hdots
  · rw [if_neg hdots, if_neg fun hfind => hlisted (unlisted_iff.mpr ⟨hdots, hfind⟩)]

theorem filesEntry_unlisted (h : NameInside blockSize b o) {s : Children × List FileNode}
    (hnew : Unlisted (listedNames hash s.1) (entryName b o)) :
    filesEntry blockSize b hash readInode o s
      = match newNode readInode (le b o 4) (entryName b o) with
        | none => .stop .panics
        | some node =>
            nextEntry blockSize b o ((s.1.insert hash node.name node).2, s.2 ++ [node]) := by
  obtain ⟨hdots, hfind⟩ := unlisted_iff.mp hnew
  rw [filesEntry_named h, if_neg hdots, if_pos hfind]

theorem filesEntry_free (hheader : o + 4 ≤ blockSize) (hfree : le b o 4 = 0)
    (s : Children × List FileNode) :
    filesEntry blockSize b hash readInode o s = nextEntry blockSize b o s := by
  unfold filesEntry
  rw [load_eq_some_iff.mpr ⟨hheader, rfl⟩]
  exact if_pos hfree

/-- An entry that is neither makes the scan leave the block. -/
theorem filesEntry_leaves (hfree : ¬ (o + 4 ≤ blockSize ∧ le b o 4 = 0))
    (hnamed : ¬ NameInside blockSize b o) (s : Children × List FileNode) :
    filesEntry blockSize b hash readInode o s = .stop .leavesBlock := by
  unfold filesEntry
  by_cases hin : o + 4 ≤ blockSize
  · have hlive : le b o 4 ≠ 0 := fun hzero => hfree ⟨hin, hzero⟩
    rw [load_eq_some_iff.mpr ⟨hin, rfl⟩]
    show (if le b o 4 = 0 then _ else reading _ _) = _
    rw [if_neg hlive]
    by_cases hheader : o + 7 ≤ blockSize
    · have hlength : load blockSize b (o + 6) 1 = some (le b (o + 6) 1) :=
        load_eq_some_iff.mpr ⟨hheader, rfl⟩
      -- the header is inside, so the name is not
      have hname : loadBytes blockSize b (o + 8) (le b (o + 6) 1) = none := by
        cases hbytes : loadBytes blockSize b (o + 8) (le b (o + 6) 1) with
        | none => rfl
        | some bytes =>
            exact absurd ⟨hheader, hlive, (loadBytes_eq_some_iff.mp hbytes).1⟩ hnamed
      rw [hlength]
      show reading (loadBytes blockSize b (o + 8) (le b (o + 6) 1)) _ = _
      rw [hname]
      rfl
    · have hlength : load blockSize b (o + 6) 1 = none := if_neg hheader
      rw [hlength]
      rfl
  · have hinode : load blockSize b o 4 = none := if_neg hin
    rw [hinode]
    rfl

/-- **The visits that move on**: what they have read, and the state behind them. -/
theorem filesEntry_move_cases {s s' : Children × List FileNode} :
    filesEntry blockSize b hash readInode o s = .move n s'
      ↔ o + 6 ≤ blockSize ∧ n = le b (o + 4) 2
        ∧ (le b o 4 = 0 ∧ s' = s
          ∨ NameInside blockSize b o
            ∧ ¬ Unlisted (listedNames hash s.1) (entryName b o) ∧ s' = s
          ∨ NameInside blockSize b o ∧ Unlisted (listedNames hash s.1) (entryName b o)
            ∧ ∃ node, newNode readInode (le b o 4) (entryName b o) = some node
              ∧ s' = ((s.1.insert hash node.name node).2, s.2 ++ [node])) := by
  by_cases hfree : o + 4 ≤ blockSize ∧ le b o 4 = 0
  · rw [filesEntry_free hfree.1 hfree.2, nextEntry_move_iff]
    refine and_congr_right fun _ => and_congr_right fun _ => ⟨fun h => Or.inl ⟨hfree.2, h⟩, ?_⟩
    rintro (⟨_, h⟩ | ⟨hnamed, _⟩ | ⟨hnamed, _⟩)
    · exact h
    · exact absurd hfree.2 hnamed.live
    · exact absurd hfree.2 hnamed.live
  · by_cases hnamed : NameInside blockSize b o
    · by_cases hnew : Unlisted (listedNames hash s.1) (entryName b o)
      · rw [filesEntry_unlisted hnamed hnew]
        cases hnode : newNode readInode (le b o 4) (entryName b o) with
        | none =>
            refine ⟨fun hmove => (by cases hmove), ?_⟩
            rintro ⟨_, _, ⟨hzero, _⟩ | ⟨_, hlisted, _⟩ | ⟨_, _, node, hsome, _⟩⟩
            · exact absurd hzero hnamed.live
            · exact absurd hnew hlisted
            · cases hsome
        | some node =>
            show nextEntry _ _ _ _ = _ ↔ _
            rw [nextEntry_move_iff]
            refine and_congr_right fun _ => and_congr_right fun _ =>
              ⟨fun h => Or.inr (Or.inr ⟨hnamed, hnew, node, rfl, h⟩), ?_⟩
            rintro (⟨hzero, _⟩ | ⟨_, hlisted, _⟩ | ⟨_, _, node', hsome, h⟩)
            · exact absurd hzero hnamed.live
            · exact absurd hnew hlisted
            · exact Option.some.inj hsome ▸ h
      · rw [filesEntry_listed hnamed hnew, nextEntry_move_iff]
        refine and_congr_right fun _ => and_congr_right fun _ =>
          ⟨fun h => Or.inr (Or.inl ⟨hnamed, hnew, h⟩), ?_⟩
        rintro (⟨hzero, _⟩ | ⟨_, _, h⟩ | ⟨_, hunlisted, _⟩)
        · exact absurd hzero hnamed.live
        · exact h
        · exact absurd hunlisted hnew
    · rw [filesEntry_leaves hfree hnamed]
      refine ⟨fun hmove => (by cases hmove), ?_⟩
      rintro ⟨hheader, _, ⟨hzero, _⟩ | ⟨h, _⟩ | ⟨h, _⟩⟩
      · exact absurd ⟨by omega, hzero⟩ hfree
      · exact absurd h hnamed
      · exact absurd h hnamed

/-- The names listed behind a visit. -/
theorem filesEntry_names_iff {s : Children × List FileNode} (hwf : ChildrenOk hash s)
    {listed : Set CString} :
    (∃ s', filesEntry blockSize b hash readInode o s = .move n s'
        ∧ listedNames hash s'.1 = listed)
      ↔ n = le b (o + 4) 2
        ∧ FilesPassed blockSize readInode b o (listedNames hash s.1) listed := by
  -- a node that is made brings its name
  have hmade : ∀ node, newNode readInode (le b o 4) (entryName b o) = some node →
      Unlisted (listedNames hash s.1) (entryName b o) →
        listedNames hash (s.1.insert hash node.name node).2
          = insert (entryName b o) (listedNames hash s.1) := by
    intro node hnode hnew
    have hname := newNode_name hnode
    rw [listedNames_insert hwf (hname ▸ hnew.new), hname]
  constructor
  · rintro ⟨s', hmove, rfl⟩
    obtain ⟨hheader, hn, ⟨hfree, rfl⟩ | ⟨hnamed, hold, rfl⟩ | ⟨hnamed, hnew, node, hnode, rfl⟩⟩ :=
      filesEntry_move_cases.mp hmove
    · exact ⟨hn, FilesPassed.free hheader hfree⟩
    · exact ⟨hn, FilesPassed.known hnamed hold⟩
    · have hknown : KnownType readInode (le b o 4) := by
        by_contra hunknown
        rw [newNode_eq_none_iff.mpr hunknown] at hnode
        cases hnode
      rw [hmade node hnode hnew]
      exact ⟨hn, FilesPassed.makes hnamed hnew hknown⟩
  · intro ⟨hn, hpassed⟩
    cases hpassed with
    | free hheader hfree =>
        exact ⟨s, filesEntry_move_cases.mpr ⟨hheader, hn, Or.inl ⟨hfree, rfl⟩⟩, rfl⟩
    | known hnamed hold =>
        have hheader := hnamed.header
        exact ⟨s, filesEntry_move_cases.mpr
          ⟨by omega, hn, Or.inr (Or.inl ⟨hnamed, hold, rfl⟩)⟩, rfl⟩
    | makes hnamed hnew hknown =>
        have hheader := hnamed.header
        obtain ⟨node, hnode⟩ := Option.ne_none_iff_exists'.mp
          (mt newNode_eq_none_iff.mp (not_not.mpr hknown))
        exact ⟨_, filesEntry_move_cases.mpr
          ⟨by omega, hn, Or.inr (Or.inr ⟨hnamed, hnew, node, hnode, rfl⟩)⟩, hmade node hnode hnew⟩

theorem filesEntry_stops_iff (s : Children × List FileNode) :
    Stops (filesEntry blockSize b hash readInode o s)
      ↔ NameInside blockSize b o ∧ Unlisted (listedNames hash s.1) (entryName b o)
        ∧ ¬ KnownType readInode (le b o 4) := by
  by_cases hnamed : NameInside blockSize b o
  · by_cases hnew : Unlisted (listedNames hash s.1) (entryName b o)
    · rw [filesEntry_unlisted hnamed hnew]
      cases hnode : newNode readInode (le b o 4) (entryName b o) with
      | none =>
          exact ⟨fun _ => ⟨hnamed, hnew, newNode_eq_none_iff.mp hnode⟩,
            fun _ => ⟨_, rfl, by intro h; cases h⟩⟩
      | some node =>
          refine ⟨fun hstops => absurd hstops (not_stops_nextEntry _), fun h => ?_⟩
          rw [newNode_eq_none_iff.mpr h.2.2] at hnode
          cases hnode
    · rw [filesEntry_listed hnamed hnew]
      exact ⟨fun hstops => absurd hstops (not_stops_nextEntry s), fun h => absurd h.2.1 hnew⟩
  · refine ⟨fun hstops => ?_, fun h => absurd h.1 hnamed⟩
    by_cases hfree : o + 4 ≤ blockSize ∧ le b o 4 = 0
    · rw [filesEntry_free hfree.1 hfree.2] at hstops
      exact absurd hstops (not_stops_nextEntry s)
    · rw [filesEntry_leaves hfree hnamed] at hstops
      exact absurd hstops not_stops_leavesBlock

theorem filesEntry_keeps {s s' : Children × List FileNode} (hwf : ChildrenOk hash s)
    (hmove : filesEntry blockSize b hash readInode o s = .move n s') : ChildrenOk hash s' := by
  obtain ⟨_, _, ⟨_, rfl⟩ | ⟨_, _, rfl⟩ | ⟨_, _, node, _, rfl⟩⟩ := filesEntry_move_cases.mp hmove
  · exact hwf
  · exact hwf
  · exact UnorderedMap.WF.insert hwf _ _

/-- When an entry is visited again, its name is listed. -/
theorem filesEntry_again {s s' : Children × List FileNode} (hwf : ChildrenOk hash s)
    (hmove : filesEntry blockSize b hash readInode o s = .move n s') :
    ∃ s'', filesEntry blockSize b hash readInode o s' = .move n s'' := by
  obtain ⟨hheader, hn, ⟨hfree, rfl⟩ | ⟨hnamed, hold, rfl⟩ | ⟨hnamed, hnew, node, hnode, rfl⟩⟩ :=
    filesEntry_move_cases.mp hmove
  · exact ⟨_, hmove⟩
  · exact ⟨_, hmove⟩
  · have hname := newNode_name hnode
    refine ⟨_, filesEntry_move_cases.mpr
      ⟨hheader, hn, Or.inr (Or.inl ⟨hnamed, fun h => h.new ?_, rfl⟩)⟩⟩
    show entryName b o ∈ listedNames hash (s.1.insert hash node.name node).2
    rw [listedNames_insert hwf (hname ▸ hnew.new), hname]
    exact Set.mem_insert _ _

end Visits

/-! ## §6. The scans that end. -/

section Scan

variable (mi : MountInfo) (readInode : Nat → InodeFields) (hash : CString → Nat) (inode : Inode)

/-- `get_file` comes to an end and reads nothing outside the block it scans. -/
def FileScanned (children : Children) (filename : CString) : Prop :=
  ∃ fuel outcome, getFile mi readInode hash fuel inode children filename = some outcome
    ∧ outcome ≠ .leavesBlock

/-- `get_files` does. -/
def FilesScanned (children : Children) : Prop :=
  ∃ fuel outcome, getFiles mi readInode hash fuel inode children = some outcome
    ∧ outcome ≠ .leavesBlock

/-- **The contents for `get_file`**: up to an entry with the name, what is read of each
entry lies in the block, and the entry has a size. -/
def FileContents (filename : CString) : Prop :=
  Ends (fun i o (_ : Unit) => FileFound mi.blockSize (dirByte mi inode i) filename o)
    (fun i o _ n _ => FilePassed mi.blockSize (dirByte mi inode i) filename o
      ∧ n = le (dirByte mi inode i) (o + 4) 2)
    mi.blockSize (blockCount mi inode) 0 0 ()

/-- **The contents for `get_files`**: the same, up to an entry that it makes a node for and
panics. -/
def FilesContents (listed : Set CString) : Prop :=
  Ends (fun i o listed => NameInside mi.blockSize (dirByte mi inode i) o
      ∧ Unlisted listed (entryName (dirByte mi inode i) o)
      ∧ ¬ KnownType readInode (le (dirByte mi inode i) o 4))
    (fun i o listed n listed' => n = le (dirByte mi inode i) (o + 4) 2
      ∧ FilesPassed mi.blockSize readInode (dirByte mi inode i) o listed listed')
    mi.blockSize (blockCount mi inode) 0 0 listed

end Scan

section Scanned

variable {mi : MountInfo} {readInode : Nat → InodeFields} {hash : CString → Nat} {inode : Inode}

/-- The results of a scan that are allowed. -/
def Inside {ρ : Type} (r : Outcome ρ) : Prop := r ≠ .leavesBlock

theorem fileEntry_observed (mi : MountInfo) (readInode : Nat → InodeFields) (inode : Inode)
    (filename : CString) :
    Observed (fun i => fileEntry mi.blockSize (dirByte mi inode i) readInode filename)
      mi.blockSize (fun _ => True) id Inside
      (fun i o _ => FileFound mi.blockSize (dirByte mi inode i) filename o)
      (fun i o _ n _ => FilePassed mi.blockSize (dirByte mi inode i) filename o
        ∧ n = le (dirByte mi inode i) (o + 4) 2) := by
  refine ⟨fun _ _ _ _ _ => fileEntry_stops_iff.symm, fun _ _ _ _ _ _ _ => ?_,
    fun _ _ _ _ _ _ _ _ => trivial, fun _ _ _ s' _ _ h => ⟨s', h⟩⟩
  refine fileEntry_move_iff.symm.trans ⟨fun h => ⟨(), h, rfl⟩, ?_⟩
  intro ⟨s', h, _⟩
  exact h

theorem filesEntry_observed (mi : MountInfo) (readInode : Nat → InodeFields)
    (hash : CString → Nat) (inode : Inode) :
    Observed (fun i => filesEntry mi.blockSize (dirByte mi inode i) hash readInode)
      mi.blockSize (ChildrenOk hash) (fun s => listedNames hash s.1) Inside
      (fun i o listed => NameInside mi.blockSize (dirByte mi inode i) o
        ∧ Unlisted listed (entryName (dirByte mi inode i) o)
        ∧ ¬ KnownType readInode (le (dirByte mi inode i) o 4))
      (fun i o listed n listed' => n = le (dirByte mi inode i) (o + 4) 2
        ∧ FilesPassed mi.blockSize readInode (dirByte mi inode i) o listed listed') :=
  ⟨fun _ _ s _ _ => (filesEntry_stops_iff s).symm,
    fun _ _ _ hwf _ _ _ => (filesEntry_names_iff hwf).symm,
    fun _ _ _ _ _ hwf _ h => filesEntry_keeps hwf h,
    fun _ _ _ _ hwf _ h => filesEntry_again hwf h⟩

/-- A function whose outcome is out of the block exactly when its scan is. -/
theorem scanned_iff {S ρ ρ' : Type} {scan : Nat → Option (Except (Outcome ρ) S)}
    {get : Nat → Option (Outcome ρ')} (hnone : ∀ fuel, scan fuel = none → get fuel = none)
    (hsome : ∀ fuel result, scan fuel = some result → ∃ outcome, get fuel = some outcome
      ∧ (outcome = .leavesBlock ↔ result = .error .leavesBlock)) :
    (∃ fuel outcome, get fuel = some outcome ∧ outcome ≠ .leavesBlock)
      ↔ ∃ fuel result, scan fuel = some result ∧ ∀ r, result = .error r → Inside r := by
  constructor
  · intro ⟨fuel, outcome, hget, hinside⟩
    cases hscan : scan fuel with
    | none =>
        rw [hnone fuel hscan] at hget
        cases hget
    | some result =>
        obtain ⟨outcome', hget', hleaves⟩ := hsome fuel result hscan
        obtain rfl := Option.some.inj (hget.symm.trans hget')
        refine ⟨fuel, result, hscan, fun r herror hr => hinside (hleaves.mpr ?_)⟩
        rw [herror, hr]
  · intro ⟨fuel, result, hscan, hinside⟩
    obtain ⟨outcome, hget, hleaves⟩ := hsome fuel result hscan
    exact ⟨fuel, outcome, hget, fun h => hinside _ (hleaves.mp h) rfl⟩

/-- **`get_file`** comes to an end exactly on the contents for it. -/
theorem fileScanned_iff (children : Children) (filename : CString) :
    FileScanned mi readInode hash inode children filename ↔ FileContents mi inode filename := by
  refine Iff.trans ?_ ((fileEntry_observed mi readInode inode filename).ends_iff trivial)
  refine scanned_iff (fun fuel hscan => ?_) fun fuel result hscan => ?_
  · unfold getFile
    rw [hscan]
  · unfold getFile
    rw [hscan]
    cases result with
    | ok s => exact ⟨_, rfl, fun h => (by cases h), fun h => (by cases h)⟩
    | error r =>
        cases r with
        | returns node => exact ⟨_, rfl, fun h => (by cases h), fun h => (by cases h)⟩
        | panics => exact ⟨_, rfl, fun h => (by cases h), fun h => (by cases h)⟩
        | leavesBlock => exact ⟨_, rfl, fun _ => rfl, fun _ => rfl⟩

/-- **`get_files`** does. -/
theorem filesScanned_iff {children : Children} (hwf : children.WF hash) :
    FilesScanned mi readInode hash inode children
      ↔ FilesContents mi readInode inode (listedNames hash children) := by
  refine Iff.trans ?_ ((filesEntry_observed mi readInode hash inode).ends_iff
    (s := (children, children.entries.map Prod.snd)) hwf)
  refine scanned_iff (fun fuel hscan => ?_) fun fuel result hscan => ?_
  · unfold getFiles
    rw [hscan]
  · unfold getFiles
    rw [hscan]
    cases result with
    | ok s => exact ⟨_, rfl, fun h => (by cases h), fun h => (by cases h)⟩
    | error r => exact ⟨r, rfl, fun h => congrArg _ h, fun h => Except.error.inj h⟩

end Scanned

/-- **THE CONTENTS THAT THE SCANS GET THROUGH.**  For all contents of the blocks of a
directory and all names, `get_file` comes to an end and reads nothing outside the block
it scans if and only if the entries up to one with the name have a size and lie in the
block as far as they are read; and so does `get_files`, over all entries up to one that
it panics at. -/
theorem directory_scans_iff (mi : MountInfo) (readInode : Nat → InodeFields)
    (hash : CString → Nat) (inode : Inode) {children : Children} (hwf : children.WF hash) :
    (∀ filename, FileScanned mi readInode hash inode children filename
        ↔ FileContents mi inode filename)
      ∧ (FilesScanned mi readInode hash inode children
        ↔ FilesContents mi readInode inode (listedNames hash children)) :=
  ⟨fileScanned_iff children, filesScanned_iff hwf⟩

/-- A directory of one block with one entry, of inode 5 and with the name `"a"`. -/
def oneEntryMount : MountInfo :=
  { smallMount with cacheWord := fun _ i => [5, 0x10400, 0x61].getD i 0 }
def oneBlockInode : Inode := ⟨1024, fun _ => 7, 0, 0, 0⟩
def fileFields (_ : Nat) : InodeFields := ⟨0x81ff, 0, 0, 0, 0, 0, 0⟩
def lengthHash (name : CString) : Nat := name.chars.length

theorem directory_scans_iff_one :
    FileScanned oneEntryMount fileFields lengthHash oneBlockInode noChildren dot
      ∧ FilesScanned oneEntryMount fileFields lengthHash oneBlockInode noChildren := by
  have hwf : noChildren.WF lengthHash := (UnorderedMap.wf_ofCapacity _ (by decide)).1
  obtain ⟨hfile, hfiles⟩ := directory_scans_iff oneEntryMount fileFields lengthHash
    oneBlockInode hwf
  -- one block, and its entry takes all of it
  have hcount : blockCount oneEntryMount oneBlockInode = 1 := by decide
  have hsize : le (dirByte oneEntryMount oneBlockInode 0) (0 + 4) 2 = 1024 := by decide
  constructor
  · refine (hfile dot).mpr ?_
    unfold FileContents
    rw [hcount]
    refine Ends.move (u := ()) (by decide)
      ⟨⟨by decide, Or.inr ⟨by decide, Or.inr ?_⟩⟩, rfl⟩ (by decide) ?_
    · exact ⟨by decide, fun h => absurd h (by decide)⟩
    · rw [hsize]
      exact Ends.turn (by decide) Ends.done
  · refine hfiles.mpr ?_
    have hnamed : NameInside 1024 (dirByte oneEntryMount oneBlockInode 0) 0 :=
      ⟨by decide, by decide, Or.inr (by decide)⟩
    unfold FilesContents
    rw [hcount]
    refine Ends.move (by decide) ⟨rfl, FilesPassed.makes hnamed ⟨by decide, by decide, ?_⟩ ?_⟩
      (by decide) ?_
    · exact not_not.mpr (UnorderedMap.at_ofCapacity (by decide) _)
    · show KnownType fileFields _
      unfold KnownType
      decide
    · rw [hsize]
      exact Ends.turn (by decide) Ends.done

/-- A block of zeros is scanned for ever. -/
theorem zero_block_never_left :
    ¬ ∀ (mi : MountInfo) (readInode : Nat → InodeFields) (hash : CString → Nat) (inode : Inode)
        (children : Children), children.WF hash →
        (∀ filename, FileScanned mi readInode hash inode children filename)
          ∧ FilesScanned mi readInode hash inode children := by
  intro h
  have hwf : noChildren.WF lengthHash := (UnorderedMap.wf_ofCapacity _ (by decide)).1
  have hscanned := (h smallMount fileFields lengthHash oneBlockInode noChildren hwf).1 dot
  have hends := (fileScanned_iff noChildren dot).mp hscanned
  unfold FileContents at hends
  rw [show blockCount smallMount oneBlockInode = 1 by decide] at hends
  cases hends with
  | turn hbehind _ => exact absurd hbehind (by decide)
  | stop _ hfound => exact hfound.live (by decide)
  | move _ hpassed hn _ =>
      rw [hpassed.2] at hn
      exact hn (by decide)

end MierOS.Ext2
