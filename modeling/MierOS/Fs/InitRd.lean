/-
  MierOS.Fs.InitRd
  **THE INITIAL RAM DISK**: `InitRdFilesystem` of `initrdfs.cpp`, which turns a tar
  archive in memory into a tree of nodes.

  One pass over the headers.  A header names a path; the directories that are
  missing on the way are made, but the walk stays in the directory in which it
  made one, so the pieces behind it are looked up there too.

  The tree is read off by its locations: what is at the end of a list of names.

  Main results: `Layout.place`, `parseHeader_refines`, `constructLoop_refines`,
  `constructLoop_overflow`.
-/
import MierOS.Fs.VNode

namespace MierOS.Fs

open Stdlib

/-! ## §1. Headers in memory. -/

/-- The bytes of memory. -/
abbrev Memory := BitVec 64 → BitVec 8

/-- The C string at `ptr`, of which `n` characters at most are looked at. -/
def Memory.cString (mem : Memory) : Nat → BitVec 64 → Path
  | 0, _ => []
  | n + 1, ptr =>
      if mem ptr = 0 then [] else Char.ofNat (mem ptr).toNat :: mem.cString n (ptr + 1)

/-- `memcmp(a, b, count)` of the kernel: 1 for equal bytes. -/
def Memory.memcmp (mem : Memory) (a : BitVec 64) : List (BitVec 8) → Nat
  | [] => 1
  | b :: bs => if mem a ≠ b then 0 else mem.memcmp (a + 1) bs

/-- `"ustar"`. -/
def ustar : List (BitVec 8) := [117, 115, 116, 97, 114]

namespace TarHeader

variable (mem : Memory) (header : BitVec 64)

/-- `filename`, which ends within its 100 bytes. -/
def filename : Path := mem.cString 100 header

/-- `size[i]`. -/
def sizeChar (i : Nat) : BitVec 8 := mem (header + 124 + BitVec.ofNat 64 i)

/-- `typeflag[0]`. -/
def typeflag : BitVec 8 := mem (header + 156)

/-- The loop of `getSize`, from `size[i - 1]` down: `val` is a `size_t`, `mul` a `u32_t`,
and so is what a digit adds. -/
def getSizeLoop : Nat → Nat → Nat → Nat
  | 0, val, _ => val
  | i + 1, val, mul =>
      let digit : Int := (sizeChar mem header i).toInt - 48
      getSizeLoop i ((val + (digit * mul % 2 ^ 32).toNat) % 2 ^ 64) (mul * 8 % 2 ^ 32)

/-- `TarHeader::getSize()`. -/
def getSize : Nat := getSizeLoop mem header 11 0 1

end TarHeader

/-- `get_vnode_type(typeFlag)`. -/
def getVnodeType (typeFlag : BitVec 8) : VNodeType :=
  if typeFlag = 0 ∨ typeFlag = 48 then .FILE
  else if typeFlag = 50 then .LINK
  else if typeFlag = 51 then .CHARACTER_DEVICE
  else if typeFlag = 52 then .BLOCK_DEVICE
  else if typeFlag = 53 then .DIRECTORY
  else .FILE

/-- Where the next header is: the product is an `int`, whose overflow is undefined. -/
def nextHeader (header : BitVec 64) (size : Nat) : Option (BitVec 64) :=
  let fileSize : Int := (size : Int).bmod (2 ^ 32)
  let length : Int := (fileSize.tdiv 512 + (if fileSize.tmod 512 = 0 then 0 else 1)) * 512
  if -2 ^ 31 ≤ length ∧ length < 2 ^ 31 then some (header + 512 + BitVec.ofInt 64 length)
  else none

/-! ## §2. The filesystem. -/

/-- `InitRdFilesystem`: like the other filesystems in memory, nodes and an `f_root`. -/
abbrev InitRdFilesystem := VNodeFilesystem

namespace InitRdFilesystem

variable (hash : Path → Nat) (fs : InitRdFilesystem)

/-- `get_node(root, file)`. -/
def getNode (root : NodeId) (file : Path) : Except Errno NodeId :=
  if (fs.nodes root).type ≠ .DIRECTORY then .error .ENOTDIR
  else if file = [] ∨ file = ['.'] then .ok root
  else if file = ['.', '.'] then .ok ((fs.nodes root).parent.getD root)
  else
    match (fs.nodes root).children.at hash file with
    | some nextRoot => .ok nextRoot
    | none => .error .ENOENT

/-- The loop of `parse_header`, over the pieces that `strchr` cuts off: what is left is
`root` and the rest of the path. -/
def parseLoop (size : Nat) : List Path → InitRdFilesystem → NodeId →
    InitRdFilesystem × NodeId × Path
  | [], fs, root => (fs, root, [])
  | [rest], fs, root => (fs, root, rest)
  | part :: next :: parts, fs, root =>
      if part = [] then parseLoop size (next :: parts) fs root
      else
        match getNode hash fs root part with
        -- `root` stays what it was
        | .error _ =>
            parseLoop size (next :: parts) (fs.makeNode hash root size part .DIRECTORY none).2 root
        | .ok node => parseLoop size (next :: parts) fs node

/-- `parse_header(headerPtr)`. -/
def parseHeader (mem : Memory) (header : BitVec 64) : InitRdFilesystem :=
  let size := TarHeader.getSize mem header
  let (fs, root, path) :=
    parseLoop hash size (components (TarHeader.filename mem header)) fs fs.root
  if path = [] then fs
  else
    let vtype := getVnodeType (TarHeader.typeflag mem header)
    (fs.makeNode hash root size path vtype
      (if vtype = .FILE then some (.initRd header) else none)).2

/-- The loop of the constructor, for at most `fuel` headers. -/
def constructLoop (mem : Memory) : Nat → BitVec 64 → InitRdFilesystem → Option InitRdFilesystem
  | 0, _, _ => none
  | fuel + 1, header, fs =>
      if mem.memcmp (header + 257) ustar = 0 then some fs
      else
        (nextHeader header (TarHeader.getSize mem header)).bind fun next =>
          constructLoop mem fuel next (parseHeader hash fs mem header)

/-- `InitRdFilesystem(initrd)`. -/
def construct (mem : Memory) (fuel : Nat) (initrd : BitVec 64) : Option InitRdFilesystem :=
  constructLoop hash mem fuel initrd VNodeFilesystem.init

/-- The node that is reached from `id` by the children of these names. -/
def walk : NodeId → List Path → Option NodeId
  | id, [] => some id
  | id, name :: names =>
      match (fs.nodes id).children.at hash name with
      | none => none
      | some child => walk child names

end InitRdFilesystem

/-! ## §3. Members of an archive. -/

/-- A member: its name, its size and its type flag. -/
structure Member where
  name : Path
  size : Nat
  typeflag : BitVec 8
  deriving Repr, DecidableEq

namespace Member

variable (m : Member)

/-- `c1`, ..., `cn` of the path `c1/.../cn`. -/
def path : List Path := (components m.name).filter (· ≠ [])

/-- The type of a member. -/
def type : VNodeType := getVnodeType m.typeflag

/-- The blocks that its data fills. -/
def length : Nat := (m.size + 511) / 512 * 512

/-- The header of a member, with its size in eleven octal digits. -/
structure HeaderAt (mem : Memory) (header : BitVec 64) : Prop where
  terminated : m.name.length ≤ 99
  filename : TarHeader.filename mem header = m.name
  size : ∀ i < 11, (TarHeader.sizeChar mem header i).toNat = 48 + m.size / 8 ^ (10 - i) % 8
  typeflag : TarHeader.typeflag mem header = m.typeflag
  magic : mem.memcmp (header + 257) ustar = 1

end Member

/-- The archive at `header`: the members with their data, and a block that is no header. -/
def ArchiveAt (mem : Memory) : BitVec 64 → List Member → Prop
  | header, [] => mem.memcmp (header + 257) ustar = 0
  | header, m :: members =>
      m.HeaderAt mem header
        ∧ ArchiveAt mem (header + 512 + BitVec.ofNat 64 m.length) members

/-- **The archives in question**: no `.` and `..` in the paths, which are distinct, sizes
below 2^31, and nothing below a member that is not a directory. -/
structure ArchiveOk (members : List Member) : Prop where
  dots : ∀ m ∈ members, ['.'] ∉ m.path ∧ ['.', '.'] ∉ m.path
  distinct : (members.map Member.path).Nodup
  size : ∀ m ∈ members, m.size < 2 ^ 31
  below : ∀ m ∈ members, ∀ m' ∈ members, m.path <+: m'.path → m.path ≠ m'.path →
    m.type = .DIRECTORY

/-! ## §4. Locations. -/

/-- The type and the size of the node at a location. -/
abbrev Layout := List Path → Option (VNodeType × Nat)

namespace Layout

/-- A root without children. -/
def init : Layout := fun p => if p = [] then some (.DIRECTORY, 0) else none

variable (t : Layout)

/-- Something at `p`, unless there is something already. -/
def add (p : List Path) (e : VNodeType × Nat) : Layout :=
  fun q => (t q).or (if q = p then some e else none)

/-- The directory at `p` has a child `c`. -/
def enters (p : List Path) (c : Path) : Prop :=
  (t p).map Prod.fst = some .DIRECTORY ∧ (t (p ++ [c])).isSome = true

instance (p : List Path) (c : Path) : Decidable (t.enters p c) :=
  inferInstanceAs (Decidable (_ ∧ _))

/-- One piece of a path: into the child, or stay and make a directory. -/
def stepInto (size : Nat) (s : Layout × List Path) (c : Path) : Layout × List Path :=
  if s.1.enters s.2 c then (s.1, s.2 ++ [c])
  else (s.1.add (s.2 ++ [c]) (.DIRECTORY, size), s.2)

end Layout

/-- The node made for a member: behind a separator, always a directory. -/
def Member.made (m : Member) : VNodeType × Nat :=
  (if (components m.name).getLastD [] = [] then .DIRECTORY else m.type, m.size)

/-- What a member does to the locations. -/
def Layout.place (t : Layout) (m : Member) : Layout :=
  if m.path = [] then t
  else
    let s := m.path.dropLast.foldl (Layout.stepInto m.size) (t, [])
    s.1.add (s.2 ++ [m.path.getLastD []]) m.made

/-- The locations after all members. -/
def Layout.build (members : List Member) : Layout := members.foldl Layout.place Layout.init

/-! ## §5. The tree by its locations. -/

section Locations

open VNodeFilesystem InitRdFilesystem

variable {hash : Path → Nat} {fs : InitRdFilesystem}

theorem walk_cons (id : NodeId) (c : Path) (p : List Path) :
    walk hash fs id (c :: p)
      = ((fs.nodes id).children.at hash c).bind fun child => walk hash fs child p := by
  rw [walk]
  cases (fs.nodes id).children.at hash c with
  | none => rfl
  | some child => rfl

theorem walk_append (id : NodeId) (p q : List Path) :
    walk hash fs id (p ++ q) = (walk hash fs id p).bind fun x => walk hash fs x q := by
  induction p generalizing id with
  | nil => rfl
  | cons name names ih =>
      rw [List.cons_append, walk_cons, walk_cons, Option.bind_assoc]
      exact Option.bind_congr fun child _ => ih child

theorem walk_snoc (id : NodeId) (p : List Path) (c : Path) :
    walk hash fs id (p ++ [c])
      = (walk hash fs id p).bind fun x => (fs.nodes x).children.at hash c := by
  rw [walk_append]
  refine Option.bind_congr fun x _ => ?_
  rw [walk_cons]
  exact Option.bind_fun_some _

/-- A node that is reached is there. -/
theorem walk_lt (hok : Linked hash fs) {p : List Path} {id : NodeId}
    (h : walk hash fs fs.root p = some id) : id < fs.next := by
  induction p using List.reverseRecOn generalizing id with
  | nil => exact Option.some.inj h ▸ hok.root
  | append_singleton p c _ =>
      rw [walk_snoc] at h
      obtain ⟨x, -, hat⟩ := Option.bind_eq_some_iff.mp h
      exact (hok.inside x c id hat).2

/-- **A node is at one location.** -/
theorem walk_inj (hok : Linked hash fs) {p q : List Path} {id : NodeId}
    (hp : walk hash fs fs.root p = some id) (hq : walk hash fs fs.root q = some id) : p = q := by
  -- the root is nobody's child, so both walks are empty or both have a last step
  have hroot : ∀ {p : List Path} {c : Path}, walk hash fs fs.root (p ++ [c]) ≠ some fs.root := by
    intro p c h
    rw [walk_snoc] at h
    obtain ⟨x, -, hat⟩ := Option.bind_eq_some_iff.mp h
    exact hok.ne_root hat rfl
  induction p using List.reverseRecOn generalizing q id with
  | nil =>
      obtain rfl := Option.some.inj hp
      rcases List.eq_nil_or_concat q with rfl | ⟨q, c, rfl⟩
      · rfl
      · exact absurd hq (by rw [List.concat_eq_append]; exact hroot)
  | append_singleton p c ih =>
      rcases List.eq_nil_or_concat q with rfl | ⟨q, d, rfl⟩
      · obtain rfl := Option.some.inj hq
        exact absurd hp hroot
      · rw [List.concat_eq_append] at hq ⊢
        rw [walk_snoc] at hp hq
        obtain ⟨x, hx, hxat⟩ := Option.bind_eq_some_iff.mp hp
        obtain ⟨y, hy, hyat⟩ := Option.bind_eq_some_iff.mp hq
        obtain ⟨hc, hxp⟩ := hok.named x c id hxat
        obtain ⟨hd, hyp⟩ := hok.named y d id hyat
        obtain rfl : x = y := Option.some.inj (hxp.symm.trans hyp)
        rw [ih hx hy, ← hc, ← hd]

/-- **Where a new node can be found**: at its name, if that was free, and nothing moves. -/
theorem makeNode_walk (hok : Linked hash fs) {cur : List Path} {root : NodeId}
    (hcur : walk hash fs fs.root cur = some root) (size : Nat) (name : Path) (type : VNodeType)
    (data : Option VNodeData) (p : List Path) :
    let fs' := (fs.makeNode hash root size name type data).2
    walk hash fs' fs'.root p
      = (walk hash fs fs.root p).or (if p = cur ++ [name] then some fs.next else none) := by
  intro fs'
  have hroot := walk_lt hok hcur
  have hat := makeNode_at hok hroot size name type data
  induction p using List.reverseRecOn with
  | nil =>
      show some fs.root = (some fs.root).or _
      rw [Option.some_or]
  | append_singleton p c ih =>
      rw [walk_snoc, walk_snoc, ih]
      cases hp : walk hash fs fs.root p with
      -- an old node: only the parent has a child more
      | some x =>
          show (fs'.nodes x).children.at hash c = ((fs.nodes x).children.at hash c).or _
          rw [hat x c]
          have hplace : (x = root ∧ c = name) ↔ p ++ [c] = cur ++ [name] := by
            rw [List.append_singleton_inj]
            refine and_congr_left fun _ => ⟨?_, ?_⟩
            · rintro rfl
              exact walk_inj hok hp hcur
            · rintro rfl
              exact Option.some.inj (hp.symm.trans hcur)
          simp only [hplace]
      -- no node, or the new one, which has no children
      | none =>
          have hne : p ++ [c] ≠ cur ++ [name] := by
            intro h
            rw [(List.append_singleton_inj.mp h).1, hcur] at hp
            exact absurd hp (by simp)
          rw [if_neg hne, Option.none_or]
          show ((if p = cur ++ [name] then some fs.next else none).bind _) = none
          split
          · show (fs'.nodes fs.next).children.at hash c = none
            rw [hat, hok.at_next, if_neg fun h => Nat.ne_of_lt hroot h.1.symm]
            rfl
          · rfl

/-- The tree has the locations `t`. -/
structure Reads (hash : Path → Nat) (fs : InitRdFilesystem) (t : Layout) : Prop where
  linked : Linked hash fs
  located : ∀ p, (walk hash fs fs.root p).map (fun id => ((fs.nodes id).type, (fs.nodes id).size))
    = t p

theorem reads_init : Reads hash VNodeFilesystem.init Layout.init := by
  refine ⟨Linked.init, fun p => ?_⟩
  cases p with
  | nil => rfl
  | cons name names =>
      have hnone : (VNodeFilesystem.init.nodes 0).children.at hash name = none :=
        at_new 0 [] .DIRECTORY none name
      show Option.map _ (walk hash VNodeFilesystem.init 0 (name :: names)) = none
      rw [walk_cons, hnone]
      rfl

/-- **A new node is a new location.** -/
theorem Reads.makeNode {t : Layout} (hreads : Reads hash fs t) {cur : List Path} {root : NodeId}
    (hcur : walk hash fs fs.root cur = some root) (size : Nat) (name : Path) (type : VNodeType)
    (data : Option VNodeData) :
    let fs' := (fs.makeNode hash root size name type data).2
    Reads hash fs' (t.add (cur ++ [name]) (type, size))
      ∧ walk hash fs' fs'.root cur = some root := by
  intro fs'
  have hok := hreads.linked
  have hroot := walk_lt hok hcur
  have hwalk := makeNode_walk hok hcur size name type data
  refine ⟨⟨hok.makeNode hroot size name type data, fun p => ?_⟩, ?_⟩
  · rw [hwalk p]
    unfold Layout.add
    rw [← hreads.located p]
    cases hp : walk hash fs fs.root p with
    | some id =>
        obtain ⟨htype, hsize, -⟩ :=
          makeNode_keeps hroot size name type data (walk_lt hok hp)
        show some ((fs'.nodes id).type, (fs'.nodes id).size) = _
        rw [show (fs'.nodes id).type = _ from htype, show (fs'.nodes id).size = _ from hsize]
        rfl
    | none =>
        show Option.map _ (if p = cur ++ [name] then some fs.next else none)
          = if p = cur ++ [name] then some (type, size) else none
        split
        · show some ((fs'.nodes fs.next).type, (fs'.nodes fs.next).size) = some (type, size)
          rw [show fs'.nodes fs.next = _ from makeNode_nodes hroot size name type data fs.next,
            if_pos rfl]
          rfl
        · rfl
  · rw [hwalk cur, hcur]
    rfl

/-- A node of the filesystem leads into a child exactly where the locations do. -/
theorem getNode_cases {t : Layout} (hreads : Reads hash fs t) {cur : List Path} {root : NodeId}
    (hcur : walk hash fs fs.root cur = some root) {part : Path} (hpart : part ≠ [])
    (hdot : part ≠ ['.']) (hdots : part ≠ ['.', '.']) :
    (t.enters cur part ∧ ∃ node, getNode hash fs root part = .ok node
      ∧ walk hash fs fs.root (cur ++ [part]) = some node)
    ∨ (¬ t.enters cur part ∧ ∃ errno, getNode hash fs root part = .error errno) := by
  have htype : (t cur).map Prod.fst = some (fs.nodes root).type := by
    rw [← hreads.located cur, hcur]
    rfl
  have hwalk : walk hash fs fs.root (cur ++ [part]) = (fs.nodes root).children.at hash part := by
    rw [walk_snoc, hcur]
    rfl
  have hthere : (t (cur ++ [part])).isSome = ((fs.nodes root).children.at hash part).isSome := by
    rw [← hreads.located, Option.isSome_map, hwalk]
  unfold getNode Layout.enters
  rw [htype, hthere]
  by_cases hdir : (fs.nodes root).type = .DIRECTORY
  · rw [if_neg (not_not_intro hdir), if_neg (fun h => h.elim hpart hdot), if_neg hdots]
    cases hat : (fs.nodes root).children.at hash part with
    | some node => exact Or.inl ⟨⟨congrArg some hdir, rfl⟩, node, rfl, hwalk.trans hat⟩
    | none => exact Or.inr ⟨fun h => absurd h.2 (by simp), .ENOENT, rfl⟩
  · rw [if_pos hdir]
    exact Or.inr ⟨fun h => hdir (Option.some.inj h.1), .ENOTDIR, rfl⟩

/-- **The loop of `parse_header`**, piece by piece. -/
theorem parseLoop_refines (size : Nat) (pieces : List Path)
    (hdots : ∀ c ∈ pieces.dropLast, c ≠ ['.'] ∧ c ≠ ['.', '.']) :
    ∀ {fs : InitRdFilesystem} {t : Layout} {cur : List Path} {root : NodeId},
    Reads hash fs t → walk hash fs fs.root cur = some root →
    let r := parseLoop hash size pieces fs root
    let s := (pieces.dropLast.filter (· ≠ [])).foldl (Layout.stepInto size) (t, cur)
    Reads hash r.1 s.1 ∧ walk hash r.1 r.1.root s.2 = some r.2.1
      ∧ r.2.2 = pieces.getLastD [] := by
  induction pieces with
  | nil =>
      intro fs t cur root hreads hcur
      exact ⟨hreads, hcur, rfl⟩
  | cons part pieces ih =>
      intro fs t cur root hreads hcur
      cases pieces with
      | nil => exact ⟨hreads, hcur, rfl⟩
      | cons next parts =>
          rw [List.dropLast_cons_cons] at hdots ⊢
          obtain ⟨hdot, htail⟩ := List.forall_mem_cons.mp hdots
          unfold parseLoop
          by_cases hpart : part = []
          · rw [if_pos hpart, List.filter_cons_of_neg (by simp [hpart])]
            exact ih htail hreads hcur
          · rw [if_neg hpart, List.filter_cons_of_pos (by simp [hpart]), List.foldl_cons]
            unfold Layout.stepInto
            rcases getNode_cases hreads hcur hpart hdot.1 hdot.2 with
              ⟨henters, node, hget, hnode⟩ | ⟨hstays, errno, hget⟩
            · rw [hget, if_pos henters]
              exact ih htail hreads hnode
            · rw [hget, if_neg hstays]
              obtain ⟨hreads', hcur'⟩ := hreads.makeNode hcur size part .DIRECTORY none
              exact ih htail hreads' hcur'

end Locations

/-! ## §6. Headers, one after another. -/

section Headers

open VNodeFilesystem InitRdFilesystem

variable {hash : Path → Nat} {mem : Memory} {fs : InitRdFilesystem}

/-- **`getSize` gives the size back**: after the digits above `i` it has the size up to
a power of eight. -/
theorem getSizeLoop_eq {header : BitVec 64} {size : Nat} (hsize : size < 2 ^ 31)
    (hdigits : ∀ i < 11,
      (TarHeader.sizeChar mem header i).toNat = 48 + size / 8 ^ (10 - i) % 8)
    {i : Nat} (hi : i ≤ 11) :
    TarHeader.getSizeLoop mem header i (size % 8 ^ (11 - i)) (8 ^ (11 - i) % 2 ^ 32) = size := by
  induction i with
  | zero => exact Nat.mod_eq_of_lt (hsize.trans (by decide))
  | succ i ih =>
      have hpow : 8 ^ (11 - (i + 1)) ≤ 8 ^ 10 := Nat.pow_le_pow_right (by decide) (by omega)
      have hsucc : 11 - i = (11 - (i + 1)) + 1 := by omega
      have hchar := hdigits i hi
      rw [show 10 - i = 11 - (i + 1) by omega] at hchar
      have hle : size / 8 ^ (11 - (i + 1)) % 8 * 8 ^ (11 - (i + 1)) ≤ size :=
        (Nat.mul_le_mul_right _ (Nat.mod_le _ 8)).trans (Nat.div_mul_le_self _ _)
      have hlt : size / 8 ^ (11 - (i + 1)) % 8 < 8 := Nat.mod_lt _ (by decide)
      have hval : size % 8 ^ (11 - i)
          = size % 8 ^ (11 - (i + 1)) + size / 8 ^ (11 - (i + 1)) % 8 * 8 ^ (11 - (i + 1)) := by
        rw [hsucc, Nat.mod_pow_succ, Nat.mul_comm]
      have hmul : 8 ^ (11 - i) % 2 ^ 32 = 8 ^ (11 - (i + 1)) % 2 ^ 32 * 8 % 2 ^ 32 := by
        rw [hsucc, pow_succ, Nat.mod_mul_mod]
      have ih := ih (Nat.le_of_succ_le hi)
      rw [hval, hmul] at ih
      generalize 8 ^ (11 - (i + 1)) = base at *
      generalize size / base % 8 = digit at *
      -- neither the product nor the sum leaves its type
      unfold TarHeader.getSizeLoop
      dsimp only
      rw [BitVec.toInt_eq_toNat_of_lt (by omega), hchar]
      have hdigit : (((48 + digit : Nat) : Int) - 48) * ((base % 2 ^ 32 : Nat) : Int) % 2 ^ 32
          = ((digit * base : Nat) : Int) := by
        rw [Nat.mod_eq_of_lt (by omega : base < 2 ^ 32)]
        rw [show ((48 + digit : Nat) : Int) - 48 = (digit : Int) by omega, ← Int.natCast_mul]
        exact Int.emod_eq_of_lt (Int.natCast_nonneg _) (by omega)
      have hsum : size % base + digit * base < 2 ^ 64 := by
        have := Nat.mod_le size base
        omega
      rw [hdigit, Int.toNat_natCast, Nat.mod_eq_of_lt hsum]
      exact ih

theorem Member.HeaderAt.getSize_eq {m : Member} {header : BitVec 64}
    (h : m.HeaderAt mem header) (hsize : m.size < 2 ^ 31) :
    TarHeader.getSize mem header = m.size := by
  have hloop := getSizeLoop_eq hsize h.size (Nat.le_refl 11)
  rw [Nat.sub_self, Nat.pow_zero, Nat.mod_one] at hloop
  exact hloop

/-- What is there is not added again. -/
theorem Layout.add_of_isSome {t : Layout} {p : List Path} (h : (t p).isSome = true)
    (e : VNodeType × Nat) : t.add p e = t := by
  funext q
  unfold Layout.add
  by_cases hq : q = p
  · rw [hq, Option.or_of_isSome h]
  · rw [if_neg hq, Option.or_none]

theorem Layout.stepInto_fst (size : Nat) (s : Layout × List Path) (c : Path) :
    (Layout.stepInto size s c).1 = s.1.add (s.2 ++ [c]) (.DIRECTORY, size) := by
  unfold Layout.stepInto
  split
  · rename_i henters
    exact (Layout.add_of_isSome henters.2 _).symm
  · rfl

/-- The pieces of a name, the last one apart. -/
theorem Member.path_eq (m : Member) :
    m.path = (components m.name).dropLast.filter (· ≠ [])
      ++ if (components m.name).getLastD [] = [] then [] else [(components m.name).getLastD []] := by
  have hne := components_ne_nil m.name
  unfold Member.path
  conv_lhs => rw [← List.dropLast_append_getLast hne, List.filter_append]
  rw [List.getLastD_eq_getLast?, List.getLast?_eq_some_getLast hne, Option.getD_some]
  split
  · rename_i hlast
    rw [List.filter_cons_of_neg (by simp [hlast]), List.filter_nil]
  · rename_i hlast
    rw [List.filter_cons_of_pos (by simp [hlast]), List.filter_nil]

/-- A member behind a separator: all its pieces go through the loop. -/
theorem Layout.place_of_separator (t : Layout) {m : Member}
    (hrest : (components m.name).getLastD [] = []) :
    t.place m
      = (((components m.name).dropLast.filter (· ≠ [])).foldl (Layout.stepInto m.size) (t, [])).1 := by
  have hpath := m.path_eq
  rw [if_pos hrest, List.append_nil] at hpath
  rw [← hpath]
  unfold Layout.place
  by_cases hnil : m.path = []
  · rw [if_pos hnil, hnil]
    rfl
  · rw [if_neg hnil]
    conv_rhs => rw [← List.dropLast_append_getLast hnil, List.foldl_append]
    rw [List.getLastD_eq_getLast?, List.getLast?_eq_some_getLast hnil, Option.getD_some]
    unfold Member.made
    rw [if_pos hrest]
    exact (Layout.stepInto_fst _ _ _).symm

/-- Any other member: the piece behind the last separator does not. -/
theorem Layout.place_of_rest (t : Layout) {m : Member}
    (hrest : (components m.name).getLastD [] ≠ []) :
    t.place m
      = (let s := ((components m.name).dropLast.filter (· ≠ [])).foldl
          (Layout.stepInto m.size) (t, [])
        s.1.add (s.2 ++ [(components m.name).getLastD []]) (m.type, m.size)) := by
  have hpath := m.path_eq
  rw [if_neg hrest] at hpath
  unfold Layout.place Member.made
  rw [if_neg hrest, hpath, if_neg (by simp), List.dropLast_concat, List.getLastD_concat]

/-- **`parse_header` does what `place` says.** -/
theorem parseHeader_refines {t : Layout} (hreads : Reads hash fs t) {m : Member}
    {header : BitVec 64} (hm : m.HeaderAt mem header) (hsize : m.size < 2 ^ 31)
    (hdots : ['.'] ∉ m.path ∧ ['.', '.'] ∉ m.path) :
    Reads hash (parseHeader hash fs mem header) (t.place m) := by
  have hpieces : ∀ c ∈ (components m.name).dropLast, c ≠ ['.'] ∧ c ≠ ['.', '.'] := by
    intro c hc
    have hin : c ≠ [] → c ∈ m.path := fun hne =>
      List.mem_filter.mpr ⟨List.mem_of_mem_dropLast hc, decide_eq_true hne⟩
    exact ⟨fun h => hdots.1 (h ▸ hin (by simp [h])), fun h => hdots.2 (h ▸ hin (by simp [h]))⟩
  obtain ⟨hreads', hcur, hrest⟩ := parseLoop_refines m.size (components m.name) hpieces hreads
    (show walk hash fs fs.root [] = some fs.root from rfl)
  unfold parseHeader
  dsimp only
  rw [hm.getSize_eq hsize, hm.filename, hm.typeflag, hrest]
  split
  · rename_i hnil
    rw [Layout.place_of_separator t hnil]
    exact hreads'
  · rename_i hne
    rw [Layout.place_of_rest t hne]
    exact (hreads'.makeNode hcur _ _ _ _).1

/-- **The step to the next header**: over the blocks of the data, if their length is an `int`. -/
theorem nextHeader_eq (header : BitVec 64) {size : Nat} (hsize : size < 2 ^ 31) :
    nextHeader header size
      = if size ≤ 2 ^ 31 - 512 then
          some (header + 512 + BitVec.ofNat 64 ((size + 511) / 512 * 512))
        else none := by
  have hmod : (size : Int).bmod (2 ^ 32) = size := Int.bmod_eq_of_le_mul_two (by omega) (by omega)
  have hlength : ((size : Int).tdiv 512 + (if (size : Int).tmod 512 = 0 then 0 else 1)) * 512
      = (((size + 511) / 512 * 512 : Nat) : Int) := by
    rw [Int.tdiv_eq_ediv_of_nonneg (Int.natCast_nonneg size),
      Int.tmod_eq_emod_of_nonneg (Int.natCast_nonneg size)]
    split <;> omega
  unfold nextHeader
  dsimp only
  rw [hmod, hlength, BitVec.ofInt_natCast]
  by_cases hle : size ≤ 2 ^ 31 - 512
  · rw [if_pos hle, if_pos (by omega)]
  · rw [if_neg hle, if_neg (by omega)]

/-- **The constructor**, over the members that are left. -/
theorem constructLoop_refines {members : List Member} (hsize : ∀ m ∈ members, m.size ≤ 2 ^ 31 - 512)
    (hdots : ∀ m ∈ members, ['.'] ∉ m.path ∧ ['.', '.'] ∉ m.path) :
    ∀ {header : BitVec 64} {fs : InitRdFilesystem} {t : Layout},
    ArchiveAt mem header members → Reads hash fs t →
    ∃ fs', (∀ fuel, members.length < fuel → constructLoop hash mem fuel header fs = some fs')
      ∧ Reads hash fs' (members.foldl Layout.place t) := by
  induction members with
  | nil =>
      intro header fs t hend hreads
      refine ⟨fs, fun fuel hfuel => ?_, hreads⟩
      obtain ⟨fuel, rfl⟩ := Nat.exists_eq_succ_of_ne_zero (Nat.ne_of_gt hfuel)
      have hend : mem.memcmp (header + 257) ustar = 0 := hend
      rw [constructLoop, if_pos hend]
  | cons m members ih =>
      intro header fs t harchive hreads
      obtain ⟨hm, hrest⟩ := harchive
      obtain ⟨hle, hsize⟩ := List.forall_mem_cons.mp hsize
      obtain ⟨hdot, hdots⟩ := List.forall_mem_cons.mp hdots
      have hlt : m.size < 2 ^ 31 := Nat.lt_of_le_of_lt hle (by decide)
      obtain ⟨fs', hloop, hreads'⟩ := ih hsize hdots hrest (parseHeader_refines hreads hm hlt hdot)
      refine ⟨fs', fun fuel hfuel => ?_, hreads'⟩
      obtain ⟨fuel, rfl⟩ := Nat.exists_eq_succ_of_ne_zero (Nat.ne_of_gt (Nat.zero_lt_of_lt hfuel))
      unfold constructLoop
      rw [hm.magic, if_neg Nat.one_ne_zero, hm.getSize_eq hlt, nextHeader_eq header hlt, if_pos hle,
        Option.bind_some]
      exact hloop fuel (Nat.lt_of_succ_lt_succ hfuel)

/-- **A member whose blocks do not fit an `int`**: the constructor does not come to an end. -/
theorem constructLoop_overflow {members : List Member} (hsize : ∀ m ∈ members, m.size < 2 ^ 31)
    (hlarge : ∃ m ∈ members, 2 ^ 31 - 512 < m.size) (fuel : Nat) :
    ∀ {header : BitVec 64} {fs : InitRdFilesystem}, ArchiveAt mem header members →
    constructLoop hash mem fuel header fs = none := by
  induction members generalizing fuel with
  | nil =>
      obtain ⟨m, hm, -⟩ := hlarge
      exact absurd hm List.not_mem_nil
  | cons m members ih =>
      intro header fs harchive
      obtain ⟨hm, hrest⟩ := harchive
      obtain ⟨hlt, hsize⟩ := List.forall_mem_cons.mp hsize
      cases fuel with
      | zero => rw [constructLoop]
      | succ fuel =>
          unfold constructLoop
          rw [hm.magic, if_neg Nat.one_ne_zero, hm.getSize_eq hlt, nextHeader_eq header hlt]
          by_cases hle : m.size ≤ 2 ^ 31 - 512
          · rw [if_pos hle, Option.bind_some]
            obtain ⟨x, hx, hxlarge⟩ := hlarge
            rcases List.mem_cons.mp hx with rfl | hx
            · exact absurd hle (Nat.not_le_of_lt hxlarge)
            · exact ih hsize ⟨x, hx, hxlarge⟩ fuel hrest
          · rw [if_neg hle, Option.bind_none]

end Headers

end MierOS.Fs
