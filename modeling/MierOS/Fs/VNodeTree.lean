/-
  MierOS.Fs.VNodeTree
  **THE TREES OF THE KERNEL'S OWN FILESYSTEMS**: `VNodeFilesystem` of
  `vnodefs.cpp`, with `add_dev` of `devicefs.cpp` and `add_node` of
  `systemfs.cpp`.

  Five operations put nodes into the tree.  They share a path walker, which
  makes missing directories and looks at the type of every node it passes but
  not of the one it stops at, and `symlink` does not ask whether the name is
  there.

  Main results: `TreeOk`, `resolvePath_cases`, `vnode_tree_invariant`,
  `symlink_over_directory`.
-/
import MierOS.Fs.VNode
import MierOS.Lib.Run

namespace MierOS.Fs

open Lib Stdlib

/-! ## §1. The operations. -/

namespace VNodeFilesystem

variable (hash : Path → Nat) (fs : VNodeFilesystem)

/-- `get_file(root, filename, flags)`. -/
def getFile (root : NodeId) (filename : Path) : Except Errno NodeId :=
  if filename = [] then .ok root
  else
    match (fs.nodes root).children.at hash filename with
    | none => .error .ENOENT
    | some file => .ok file

/-- `symlink(root, filename, dest)`. -/
def symlink (root : Option NodeId) (filename dest : Path) :
    Except Errno NodeId × VNodeFilesystem :=
  let root := root.getD fs.root
  let (node, fs) := fs.makeNode hash root 0 filename .LINK (some (.link dest))
  (.ok node, fs)

/-- `mkdir(root, filename)`. -/
def mkdir (root : Option NodeId) (filename : Path) : Except Errno NodeId × VNodeFilesystem :=
  let root := root.getD fs.root
  match fs.getFile hash root filename with
  | .ok _ => (.error .EEXIST, fs)
  | .error _ =>
      let (node, fs) := fs.makeNode hash root 0 filename .DIRECTORY none
      (.ok node, fs)

/-- The loop of `resolve_path`, over the pieces that `strchr` cuts off and the rest. -/
def resolveLoop (makeDirs : Bool) : List Path → VNodeFilesystem → NodeId →
    Except Errno (NodeId × Path) × VNodeFilesystem
  | [], fs, root => (.ok (root, []), fs)
  | [rest], fs, root => (.ok (root, rest), fs)
  | part :: next :: parts, fs, root =>
      if (fs.nodes root).type ≠ .DIRECTORY then (.error .ENOTDIR, fs)
      else if part = [] then resolveLoop makeDirs (next :: parts) fs root
      else
        match fs.getFile hash root part with
        | .ok nextRoot => resolveLoop makeDirs (next :: parts) fs nextRoot
        | .error errno =>
            if errno = .ENOENT ∧ makeDirs = true then
              match fs.mkdir hash (some root) part with
              | (.ok nextRoot, fs) => resolveLoop makeDirs (next :: parts) fs nextRoot
              | (.error errno, fs) => (.error errno, fs)
            else (.error errno, fs)

/-- `resolve_path(path, root, makeDirs)`. -/
def resolvePath (path : Path) (root : Option NodeId) (makeDirs : Bool) :
    Except Errno (NodeId × Path) × VNodeFilesystem :=
  resolveLoop hash makeDirs (components path) fs (root.getD fs.root)

/-- `add_directory(root, path)`. -/
def addDirectory (root : Option NodeId) (path : Path) : Except Errno NodeId × VNodeFilesystem :=
  match fs.resolvePath hash path root true with
  | (.error errno, fs) => (.error errno, fs)
  | (.ok (root, filename), fs) => fs.mkdir hash (some root) filename

/-- The body that `add_dev` and `add_node` share. -/
def addAt (root : Option NodeId) (path : Path) (type : VNodeType) (data : VNodeData) :
    Except Errno NodeId × VNodeFilesystem :=
  match fs.resolvePath hash path root true with
  | (.error errno, fs) => (.error errno, fs)
  | (.ok (root, filename), fs) =>
      if ((fs.nodes root).children.at hash filename).isSome then (.error .EEXIST, fs)
      else
        let (node, fs) := fs.makeNode hash root 0 filename type (some data)
        (.ok node, fs)

/-- `DeviceFilesystem::add_dev(path, major, minor, deviceType)`. -/
def addDev (path : Path) (major minor : Nat) (deviceType : VNodeType) :
    Except Errno NodeId × VNodeFilesystem :=
  fs.addAt hash none path deviceType (.dev major minor)

/-- `SystemFilesystem::add_node(root, path)`; the data it returns leads to the node. -/
def addNode (root : Option NodeId) (path : Path) : Except Errno NodeId × VNodeFilesystem :=
  fs.addAt hash root path .FILE .sysFs

/-- The node a path leads to before its last piece, if it is all there. -/
def findParent (root : Option NodeId) (path : Path) : Option NodeId :=
  match (fs.resolvePath hash path root false).1 with
  | .ok (p, _) => some p
  | .error _ => none

end VNodeFilesystem

namespace VNodeTree

/-- A call that puts a node into the tree. -/
inductive Call
  | mkdir (root : Option NodeId) (filename : Path)
  | addDirectory (root : Option NodeId) (path : Path)
  | symlink (root : Option NodeId) (filename dest : Path)
  | addDev (path : Path) (major minor : Nat) (deviceType : VNodeType)
  | addNode (root : Option NodeId) (path : Path)
  deriving Repr, DecidableEq

namespace Call

/-- The node a call starts from. -/
def root : Call → Option NodeId
  | mkdir root _ => root
  | addDirectory root _ => root
  | symlink root _ _ => root
  | addDev _ _ _ _ => none
  | addNode root _ => root

/-- The name asked for: the last piece of a path. -/
def name : Call → Path
  | mkdir _ filename => filename
  | addDirectory _ path => (components path).getLastD []
  | symlink _ filename _ => filename
  | addDev path _ _ _ => (components path).getLastD []
  | addNode _ path => (components path).getLastD []

/-- The calls that end in `mkdir`, for which an empty name is the directory itself. -/
def isMkdir : Call → Bool
  | mkdir _ _ => true
  | addDirectory _ _ => true
  | _ => false

/-- Run a call: its result and the filesystem after. -/
def run (hash : Path → Nat) (fs : VNodeFilesystem) : Call →
    Except Errno NodeId × VNodeFilesystem
  | mkdir root filename => fs.mkdir hash root filename
  | addDirectory root path => fs.addDirectory hash root path
  | symlink root filename dest => fs.symlink hash root filename dest
  | addDev path major minor deviceType => fs.addDev hash path major minor deviceType
  | addNode root path => fs.addNode hash root path

/-- The directory that is asked for the name, if it is there before the call. -/
def parent (hash : Path → Nat) (fs : VNodeFilesystem) : Call → Option NodeId
  | mkdir root _ => some (root.getD fs.root)
  | symlink root _ _ => some (root.getD fs.root)
  | addDirectory root path => fs.findParent hash root path
  | addDev path _ _ _ => fs.findParent hash none path
  | addNode root path => fs.findParent hash root path

end Call

/-- One call on a node of the filesystem, with its result. -/
def Step (hash : Path → Nat) (fs : VNodeFilesystem) (e : Call × Except Errno NodeId)
    (fs' : VNodeFilesystem) : Prop :=
  (∀ root, e.1.root = some root → root < fs.next) ∧ e.1.run hash fs = (e.2, fs')

/-- The name asked for is taken. -/
def Taken (hash : Path → Nat) (fs : VNodeFilesystem) (c : Call) : Prop :=
  ∃ p, c.parent hash fs = some p ∧ ((fs.nodes p).children.at hash c.name).isSome = true

/-- **The calls that go right**: the name is asked of a directory, and a link is made
under a name that is not taken. -/
structure Proper (hash : Path → Nat) (fs : VNodeFilesystem) (c : Call) : Prop where
  directory : ∀ p, c.parent hash fs = some p →
    (fs.nodes p).type = .DIRECTORY ∨ (c.isMkdir = true ∧ c.name = [])
  fresh : ∀ root filename dest, c = .symlink root filename dest → ¬ Taken hash fs c

/-- **A tree in order**: besides, only directories have children. -/
structure TreeOk (hash : Path → Nat) (fs : VNodeFilesystem) : Prop extends Linked hash fs where
  directory : ∀ id k v, (fs.nodes id).children.at hash k = some v →
    (fs.nodes id).type = .DIRECTORY

/-! ## §2. A new node. -/

section Nodes

open VNodeFilesystem

variable {hash : Path → Nat} {fs fs' : VNodeFilesystem}

/-- The filesystem of a kernel start. -/
theorem TreeOk.init : TreeOk hash VNodeFilesystem.init :=
  ⟨Linked.init, fun _ k _ h =>
    absurd (h.symm.trans (at_new 0 [] .DIRECTORY none k)) (by simp)⟩

/-- **A node is put under a name of a directory.** -/
theorem TreeOk.makeNode (hok : TreeOk hash fs) {root : NodeId} (hroot : root < fs.next)
    (hdir : (fs.nodes root).type = .DIRECTORY) (size : Nat) (name : Path) (type : VNodeType)
    (data : Option VNodeData) : TreeOk hash (fs.makeNode hash root size name type data).2 := by
  have hkeeps : ∀ id, id < fs.next →
      ((fs.makeNode hash root size name type data).2.nodes id).type = (fs.nodes id).type :=
    fun id hid => (makeNode_keeps hroot size name type data hid).1
  refine ⟨hok.toLinked.makeNode hroot size name type data, fun id k v h => ?_⟩
  rcases makeNode_entry hok.toLinked hroot h with hold | ⟨rfl, -, -⟩
  · exact (hkeeps id (hok.inside id k v hold).1).trans (hok.directory id k v hold)
  · exact (hkeeps id hroot).trans hdir

/-- The result of a successful call: the node is in its parent under the name. -/
def Found (hash : Path → Nat) (fs : VNodeFilesystem) (node : NodeId) (name : Path) : Prop :=
  ∃ p, (fs.nodes node).parent = some p ∧ (fs.nodes p).children.at hash name = some node

theorem found_makeNode (hok : TreeOk hash fs) {root : NodeId} (hroot : root < fs.next)
    {name : Path} (hfree : (fs.nodes root).children.at hash name = none) (size : Nat)
    (type : VNodeType) (data : Option VNodeData) :
    Found hash (fs.makeNode hash root size name type data).2 fs.next name := by
  refine ⟨root, ?_, ?_⟩
  · rw [makeNode_nodes hroot, if_pos rfl]
  · rw [makeNode_at_free hok.toLinked hroot hfree, if_pos ⟨rfl, rfl⟩]

end Nodes

/-! ## §3. The walker. -/

section Walk

open VNodeFilesystem

variable {hash : Path → Nat} {fs fs' : VNodeFilesystem}

theorem getFile_ok {root : NodeId} {filename : Path} (hname : filename ≠ []) {node : NodeId} :
    fs.getFile hash root filename = .ok node
      ↔ (fs.nodes root).children.at hash filename = some node := by
  unfold getFile
  rw [if_neg hname]
  cases (fs.nodes root).children.at hash filename with
  | none => exact ⟨nofun, nofun⟩
  | some file => exact ⟨fun h => by injection h with h; rw [h], fun h => by injection h with h; rw [h]⟩

theorem getFile_error {root : NodeId} {filename : Path} {errno : Errno}
    (h : fs.getFile hash root filename = .error errno) :
    errno = .ENOENT ∧ filename ≠ [] ∧ (fs.nodes root).children.at hash filename = none := by
  unfold getFile at h
  split at h
  · exact absurd h (by simp)
  · rename_i hname
    cases hat : (fs.nodes root).children.at hash filename with
    | some file =>
        rw [hat] at h
        exact absurd h (by simp)
    | none =>
        rw [hat] at h
        injection h with h
        exact ⟨h.symm, hname, rfl⟩

/-- `mkdir` makes a directory, or the name is taken or empty. -/
theorem mkdir_cases (root : NodeId) (filename : Path) :
    (filename ≠ [] ∧ (fs.nodes root).children.at hash filename = none
      ∧ fs.mkdir hash (some root) filename
        = (.ok fs.next, (fs.makeNode hash root 0 filename .DIRECTORY none).2))
    ∨ ((filename = [] ∨ (fs.nodes root).children.at hash filename ≠ none)
      ∧ fs.mkdir hash (some root) filename = (.error .EEXIST, fs)) := by
  unfold mkdir
  dsimp only [Option.getD_some]
  cases hget : fs.getFile hash root filename with
  | ok file =>
      refine Or.inr ⟨?_, rfl⟩
      by_cases hname : filename = []
      · exact Or.inl hname
      · refine Or.inr ?_
        rw [(getFile_ok hname).mp hget]
        exact Option.some_ne_none file
  | error errno =>
      obtain ⟨-, hname, hfree⟩ := getFile_error hget
      exact Or.inl ⟨hname, hfree, rfl⟩

/-- From a directory without children, a walk that makes nothing goes nowhere. -/
theorem resolveLoop_of_empty {root : NodeId}
    (hempty : ∀ k, (fs.nodes root).children.at hash k = none) (parts : List Path) {p : NodeId}
    {rest : Path} (h : (resolveLoop hash false parts fs root).1 = .ok (p, rest)) : p = root := by
  induction parts with
  | nil =>
      injection h with h
      exact (Prod.mk.inj h).1.symm
  | cons part parts ih =>
      cases parts with
      | nil =>
          injection h with h
          exact (Prod.mk.inj h).1.symm
      | cons next parts =>
          unfold resolveLoop at h
          split at h
          · exact absurd h (by simp)
          · split at h
            · exact ih h
            · rename_i hpart
              cases hget : fs.getFile hash root part with
              | ok nextRoot =>
                  have hsome := (getFile_ok hpart).mp hget
                  rw [hempty] at hsome
                  exact absurd hsome (by simp)
              | error errno =>
                  rw [hget] at h
                  exact absurd h (by simp)

/-- A walk that finds everything makes nothing. -/
theorem resolveLoop_true_of_false {root : NodeId} (parts : List Path) {x : NodeId × Path}
    (h : (resolveLoop hash false parts fs root).1 = .ok x) :
    resolveLoop hash true parts fs root = (.ok x, fs) := by
  induction parts generalizing root with
  | nil =>
      injection h with h
      rw [← h]
      rfl
  | cons part parts ih =>
      cases parts with
      | nil =>
          injection h with h
          rw [← h]
          rfl
      | cons next parts =>
          unfold resolveLoop at h ⊢
          split at h
          · exact absurd h (by simp)
          · rename_i hdir
            rw [if_neg hdir]
            split at h
            · rename_i hpart
              rw [if_pos hpart]
              exact ih h
            · rename_i hpart
              rw [if_neg hpart]
              cases hget : fs.getFile hash root part with
              | ok nextRoot =>
                  rw [hget] at h
                  exact ih h
              | error errno =>
                  rw [hget] at h
                  exact absurd h (by simp)

/-- **Where the walker stops**: the tree stays in order, and the walk ends where it
ends when nothing is made, or in a directory that it had to make a way to. -/
theorem resolveLoop_cases (parts : List Path) : ∀ {fs : VNodeFilesystem} {root : NodeId},
    TreeOk hash fs → root < fs.next →
    let r := resolveLoop hash true parts fs root
    TreeOk hash r.2
      ∧ ∀ p rest, r.1 = .ok (p, rest) → p < r.2.next ∧ rest = parts.getLastD []
        ∧ ((r.2 = fs ∧ (resolveLoop hash false parts fs root).1 = .ok (p, rest))
          ∨ (r.2.nodes p).type = .DIRECTORY) := by
  induction parts with
  | nil =>
      intro fs root hok hroot
      refine ⟨hok, fun p rest h => ?_⟩
      obtain ⟨rfl, rfl⟩ := Prod.mk.inj (Except.ok.inj h)
      exact ⟨hroot, rfl, Or.inl ⟨rfl, rfl⟩⟩
  | cons part parts ih =>
      intro fs root hok hroot
      cases parts with
      | nil =>
          refine ⟨hok, fun p rest h => ?_⟩
          obtain ⟨rfl, rfl⟩ := Prod.mk.inj (Except.ok.inj h)
          exact ⟨hroot, rfl, Or.inl ⟨rfl, rfl⟩⟩
      | cons next parts =>
          unfold resolveLoop
          by_cases hdir : (fs.nodes root).type = .DIRECTORY
          · rw [if_neg (not_not_intro hdir), if_neg (not_not_intro hdir)]
            by_cases hpart : part = []
            · rw [if_pos hpart, if_pos hpart]
              exact ih hok hroot
            · rw [if_neg hpart, if_neg hpart]
              cases hget : fs.getFile hash root part with
              | ok nextRoot =>
                  have hat := (getFile_ok hpart).mp hget
                  exact ih hok (hok.inside root part nextRoot hat).2
              | error errno =>
                  obtain ⟨rfl, -, hfree⟩ := getFile_error hget
                  have hmkdir := (mkdir_cases root part).resolve_right fun h =>
                    h.1.elim hpart fun hne => hne hfree
                  dsimp only
                  rw [if_pos ⟨rfl, rfl⟩, hmkdir.2.2]
                  have hok' := hok.makeNode hroot hdir 0 part .DIRECTORY none
                  obtain ⟨htree, hend⟩ := ih hok' (Nat.lt_succ_self fs.next)
                  refine ⟨htree, fun p rest h => ?_⟩
                  obtain ⟨hp, hrest, hwhere⟩ := hend p rest h
                  refine ⟨hp, hrest, Or.inr ?_⟩
                  rcases hwhere with ⟨hsame, hfalse⟩ | htype
                  · -- behind a directory just made there is nothing
                    have hp : p = fs.next := by
                      refine resolveLoop_of_empty (fun k => ?_) _ hfalse
                      rw [makeNode_at_free hok.toLinked hroot hfree,
                        if_neg fun h => Nat.ne_of_lt hroot h.1.symm, hok.at_next]
                    rw [hsame, hp, makeNode_nodes hroot, if_pos rfl]
                    rfl
                  · exact htype
          · rw [if_pos hdir]
            exact ⟨hok, fun p rest h => absurd h (by simp)⟩

end Walk

/-! ## §4. The calls. -/

section Calls

open VNodeFilesystem

variable {hash : Path → Nat} {fs fs' : VNodeFilesystem}

/-- **What is wanted of a call** that asks directory `p` for `name`. -/
structure Outcome (hash : Path → Nat) (fs : VNodeFilesystem) (p : NodeId) (name : Path)
    (r : Except Errno NodeId × VNodeFilesystem) : Prop where
  tree : TreeOk hash r.2
  taken : ((fs.nodes p).children.at hash name).isSome = true → r = (.error .EEXIST, fs)
  found : ∀ node, r.1 = .ok node → Found hash r.2 node name

/-- Making a node under a free name of a directory. -/
theorem outcome_makeNode (hok : TreeOk hash fs) {p : NodeId} (hp : p < fs.next)
    (hdir : (fs.nodes p).type = .DIRECTORY) {name : Path}
    (hfree : (fs.nodes p).children.at hash name = none) (type : VNodeType)
    (data : Option VNodeData) :
    Outcome hash fs p name (.ok fs.next, (fs.makeNode hash p 0 name type data).2) := by
  refine ⟨hok.makeNode hp hdir 0 name type data, fun h => ?_, fun node h => ?_⟩
  · rw [hfree] at h
    exact absurd h (by simp)
  · injection h with h
    rw [← h]
    exact found_makeNode hok hp hfree 0 type data

theorem outcome_eexist (hok : TreeOk hash fs) (p : NodeId) (name : Path) :
    Outcome hash fs p name (.error .EEXIST, fs) :=
  ⟨hok, fun _ => rfl, fun node h => absurd h (by simp)⟩

/-- **`mkdir`.** -/
theorem outcome_mkdir (hok : TreeOk hash fs) {p : NodeId} (hp : p < fs.next) {name : Path}
    (hdir : (fs.nodes p).type = .DIRECTORY ∨ name = []) :
    Outcome hash fs p name (fs.mkdir hash (some p) name) := by
  rcases mkdir_cases p name with ⟨hname, hfree, h⟩ | ⟨-, h⟩
  · rw [h]
    exact outcome_makeNode hok hp (hdir.resolve_right hname) hfree _ _
  · rw [h]
    exact outcome_eexist hok p name

/-- The end of `add_dev` and `add_node`. -/
def addLeaf (hash : Path → Nat) (type : VNodeType) (data : VNodeData) (fs : VNodeFilesystem)
    (p : NodeId) (name : Path) : Except Errno NodeId × VNodeFilesystem :=
  if ((fs.nodes p).children.at hash name).isSome then (.error .EEXIST, fs)
  else (.ok fs.next, (fs.makeNode hash p 0 name type (some data)).2)

/-- **`add_dev` and `add_node`**, in the directory found. -/
theorem outcome_addLeaf (hok : TreeOk hash fs) {p : NodeId} (hp : p < fs.next) {name : Path}
    (hdir : (fs.nodes p).type = .DIRECTORY) (type : VNodeType) (data : VNodeData) :
    Outcome hash fs p name (addLeaf hash type data fs p name) := by
  unfold addLeaf
  split
  · exact outcome_eexist hok p name
  · rename_i hfree
    exact outcome_makeNode hok hp hdir (Option.not_isSome_iff_eq_none.mp hfree) type _

/-- A path, and what is done in the directory it leads to. -/
def walkThen (hash : Path → Nat) (fs : VNodeFilesystem) (root : Option NodeId) (path : Path)
    (body : VNodeFilesystem → NodeId → Path → Except Errno NodeId × VNodeFilesystem) :
    Except Errno NodeId × VNodeFilesystem :=
  match fs.resolvePath hash path root true with
  | (.error errno, fs) => (.error errno, fs)
  | (.ok (p, name), fs) => body fs p name

/-- **A call with a path.** -/
theorem outcome_walkThen (hok : TreeOk hash fs) {root : Option NodeId}
    (hroot : root.getD fs.root < fs.next) (path : Path)
    {body : VNodeFilesystem → NodeId → Path → Except Errno NodeId × VNodeFilesystem}
    {spare : Path → Prop}
    (hbody : ∀ {fs p name}, TreeOk hash fs → p < fs.next →
      ((fs.nodes p).type = .DIRECTORY ∨ spare name) → Outcome hash fs p name (body fs p name))
    (hguard : ∀ p name, (fs.resolvePath hash path root false).1 = .ok (p, name) →
      (fs.nodes p).type = .DIRECTORY ∨ spare name) :
    let r := walkThen hash fs root path body
    TreeOk hash r.2
      ∧ (∀ p name, (fs.resolvePath hash path root false).1 = .ok (p, name) →
        ((fs.nodes p).children.at hash name).isSome = true → r = (.error .EEXIST, fs))
      ∧ ∀ node, r.1 = .ok node → Found hash r.2 node ((components path).getLastD []) := by
  obtain ⟨htree, hend⟩ := resolveLoop_cases (components path) hok hroot
  -- a name that is there: both walks end in the same place
  have htaken : ∀ p name, (fs.resolvePath hash path root false).1 = .ok (p, name) →
      ((fs.nodes p).children.at hash name).isSome = true →
      walkThen hash fs root path body = (.error .EEXIST, fs) := by
    intro p name hfalse htaken
    have hwalk : resolveLoop hash true (components path) fs (root.getD fs.root)
        = (.ok (p, name), fs) := resolveLoop_true_of_false _ hfalse
    rw [hwalk] at hend
    have hp := (hend p name rfl).1
    unfold walkThen resolvePath
    rw [hwalk]
    exact (hbody hok hp (hguard p name hfalse)).taken htaken
  have hrest : TreeOk hash (walkThen hash fs root path body).2
      ∧ ∀ node, (walkThen hash fs root path body).1 = .ok node →
        Found hash (walkThen hash fs root path body).2 node ((components path).getLastD []) := by
    unfold walkThen resolvePath
    generalize hwalk : resolveLoop hash true (components path) fs (root.getD fs.root) = walk at *
    obtain ⟨result, fs₁⟩ := walk
    cases result with
    | error errno =>
        refine ⟨htree, ?_⟩
        intro node h
        cases h
    | ok x =>
        obtain ⟨p, name⟩ := x
        obtain ⟨hp, hname, hwhere⟩ := hend p name rfl
        -- the walk made the directory it ends in, or changed nothing
        have hdir : (fs₁.nodes p).type = .DIRECTORY ∨ spare name := by
          rcases hwhere with ⟨hsame, hfalse⟩ | hdir
          · rw [show fs₁ = fs from hsame]
            exact hguard p name hfalse
          · exact Or.inl hdir
        have hout := hbody htree hp hdir
        refine ⟨hout.tree, ?_⟩
        intro node h
        rw [← hname]
        exact hout.found node h
  exact ⟨hrest.1, htaken, hrest.2⟩

theorem findParent_some {root : Option NodeId} {path : Path} {p : NodeId}
    (h : fs.findParent hash root path = some p) :
    ∃ name, (fs.resolvePath hash path root false).1 = .ok (p, name) := by
  unfold findParent at h
  cases hwalk : (fs.resolvePath hash path root false).1 with
  | error errno =>
      rw [hwalk] at h
      exact absurd h (by simp)
  | ok x =>
      rw [hwalk] at h
      exact ⟨x.2, by rw [← Option.some.inj h]⟩

/-- The second half of what a walk gives is the last piece. -/
theorem resolvePath_false_name (hok : TreeOk hash fs) {root : Option NodeId}
    (hroot : root.getD fs.root < fs.next) {path : Path} {p : NodeId} {name : Path}
    (h : (fs.resolvePath hash path root false).1 = .ok (p, name)) :
    name = (components path).getLastD [] := by
  have hwalk : resolveLoop hash true (components path) fs (root.getD fs.root)
      = (.ok (p, name), fs) := resolveLoop_true_of_false _ h
  exact ((resolveLoop_cases (components path) hok hroot).2 p name (by rw [hwalk])).2.1

/-- **A step with a path.** -/
theorem step_walkThen (spare : Path → Prop) (hok : TreeOk hash fs) {root : Option NodeId}
    (hroot : root.getD fs.root < fs.next) {path : Path}
    {body : VNodeFilesystem → NodeId → Path → Except Errno NodeId × VNodeFilesystem}
    (hbody : ∀ {fs p name}, TreeOk hash fs → p < fs.next →
      ((fs.nodes p).type = .DIRECTORY ∨ spare name) → Outcome hash fs p name (body fs p name))
    (hguard : ∀ p, fs.findParent hash root path = some p →
      (fs.nodes p).type = .DIRECTORY ∨ spare ((components path).getLastD []))
    {result : Except Errno NodeId} (hrun : walkThen hash fs root path body = (result, fs')) :
    TreeOk hash fs'
      ∧ ((∃ p, fs.findParent hash root path = some p
        ∧ ((fs.nodes p).children.at hash ((components path).getLastD [])).isSome = true) →
        result = .error .EEXIST ∧ fs' = fs)
      ∧ ∀ node, result = .ok node → Found hash fs' node ((components path).getLastD []) := by
  have hparent : ∀ p name, (fs.resolvePath hash path root false).1 = .ok (p, name) →
      fs.findParent hash root path = some p := by
    intro p name h
    unfold findParent
    rw [h]
  obtain ⟨htree, htaken, hfound⟩ := outcome_walkThen hok hroot path hbody fun p name h => by
    rw [resolvePath_false_name hok hroot h]
    exact hguard p (hparent p name h)
  rw [hrun] at htree htaken hfound
  refine ⟨htree, ?_, hfound⟩
  intro ⟨p, hp, hsome⟩
  obtain ⟨name, hwalk⟩ := findParent_some hp
  rw [← resolvePath_false_name hok hroot hwalk] at hsome
  exact Prod.mk.inj (htaken p name hwalk hsome)

/-- **A step in a given directory.** -/
theorem step_outcome {p : NodeId} {name : Path} {result : Except Errno NodeId}
    (hout : Outcome hash fs p name (result, fs')) :
    TreeOk hash fs'
      ∧ ((∃ q, some p = some q ∧ ((fs.nodes q).children.at hash name).isSome = true) →
        result = .error .EEXIST ∧ fs' = fs)
      ∧ ∀ node, result = .ok node → Found hash fs' node name := by
  refine ⟨hout.tree, ?_, hout.found⟩
  intro ⟨q, hq, hsome⟩
  rw [← Option.some.inj hq] at hsome
  exact Prod.mk.inj (hout.taken hsome)

/-- **Step lemma.** -/
theorem TreeOk.step {e : Call × Except Errno NodeId} (hok : TreeOk hash fs)
    (hproper : Proper hash fs e.1) (hs : Step hash fs e fs') :
    TreeOk hash fs' ∧ (Taken hash fs e.1 → e.2 = .error .EEXIST ∧ fs' = fs)
      ∧ ∀ node, e.2 = .ok node → Found hash fs' node e.1.name := by
  obtain ⟨c, result⟩ := e
  obtain ⟨hvalid, hrun⟩ := hs
  have hroot : c.root.getD fs.root < fs.next := by
    cases hc : c.root with
    | none => exact hok.root
    | some root => exact hvalid root hc
  cases c with
  | mkdir root filename =>
      have hrun : fs.mkdir hash (some (root.getD fs.root)) filename = (result, fs') := hrun
      have hdir : (fs.nodes (root.getD fs.root)).type = .DIRECTORY ∨ filename = [] :=
        (hproper.directory _ rfl).imp_right And.right
      have hout : Outcome hash fs (root.getD fs.root) filename (result, fs') :=
        hrun ▸ outcome_mkdir hok hroot hdir
      exact step_outcome hout
  | symlink root filename dest =>
      have hrun : (.ok fs.next, (fs.makeNode hash (root.getD fs.root) 0 filename .LINK
        (some (.link dest))).2) = (result, fs') := hrun
      have hdir := (hproper.directory _ rfl).resolve_right fun h => by simp [Call.isMkdir] at h
      have hfree : (fs.nodes (root.getD fs.root)).children.at hash filename = none := by
        by_contra hsome
        exact hproper.fresh root filename dest rfl
          ⟨_, rfl, Option.isSome_iff_ne_none.mpr hsome⟩
      have hout : Outcome hash fs (root.getD fs.root) filename (result, fs') :=
        hrun ▸ outcome_makeNode hok hroot hdir hfree .LINK (some (.link dest))
      exact step_outcome hout
  | addDirectory root path =>
      have hrun : walkThen hash fs root path (fun fs p name => fs.mkdir hash (some p) name)
        = (result, fs') := hrun
      exact step_walkThen (fun name => name = []) hok hroot
        (fun hok hp hdir => outcome_mkdir hok hp hdir)
        (fun p hp => (hproper.directory p hp).imp_right And.right) hrun
  | addDev path major minor deviceType =>
      have hrun : walkThen hash fs none path (addLeaf hash deviceType (.dev major minor))
        = (result, fs') := hrun
      exact step_walkThen (fun _ => False) hok hroot
        (fun hok hp hdir => outcome_addLeaf hok hp (hdir.resolve_right id) _ _)
        (fun p hp => (hproper.directory p hp).imp_right fun h => by simp [Call.isMkdir] at h) hrun
  | addNode root path =>
      have hrun : walkThen hash fs root path (addLeaf hash .FILE .sysFs) = (result, fs') := hrun
      exact step_walkThen (fun _ => False) hok hroot
        (fun hok hp hdir => outcome_addLeaf hok hp (hdir.resolve_right id) _ _)
        (fun p hp => (hproper.directory p hp).imp_right fun h => by simp [Call.isMkdir] at h) hrun

end Calls

/-- **THE TREE OF A KERNEL FILESYSTEM.**  In every run of proper calls: only directories
have children; every child is stored under its own name in the directory it has for a
parent; a call on a name that is taken fails with `EEXIST` and changes nothing; and
the node that a call returns is found in its parent under the name asked for. -/
theorem vnode_tree_invariant (hash : Path → Nat)
    {hist : List (Call × Except Errno NodeId)} {fs : VNodeFilesystem}
    (hrun : GuardedRun (Step hash) (fun _ fs e => Proper hash fs e.1) VNodeFilesystem.init hist fs) :
    (∀ id k v, (fs.nodes id).children.at hash k = some v →
        (fs.nodes id).type = .DIRECTORY ∧ (fs.nodes v).name = k ∧ (fs.nodes v).parent = some id)
      ∧ ∀ e fs', Proper hash fs e.1 → Step hash fs e fs' →
        (Taken hash fs e.1 → e.2 = .error .EEXIST ∧ fs' = fs)
        ∧ ∀ node, e.2 = .ok node →
          ∃ p, (fs'.nodes node).parent = some p
            ∧ (fs'.nodes p).children.at hash e.1.name = some node := by
  have hok : TreeOk hash fs := by
    refine hrun.historyInvariant (fun _ fs => TreeOk hash fs) TreeOk.init ?_
    intro _ fs e fs' hok hproper hs
    exact (hok.step hproper hs).1
  exact ⟨fun id k v h => ⟨hok.directory id k v h, hok.named id k v h⟩,
    fun e fs' hproper hs => (hok.step hproper hs).2⟩

/-- A directory, and a link in it. -/
theorem vnode_tree_invariant_mkdir :
    ∃ hist fs, GuardedRun (Step fun _ => 0) (fun _ fs e => Proper (fun _ => 0) fs e.1)
        VNodeFilesystem.init hist fs
      ∧ hist.map Prod.snd = [.ok 2, .ok 1]
      ∧ (fs.nodes 1).children.at (fun _ => 0) ['b'] = some 2
      ∧ (fs.nodes 1).type = .DIRECTORY ∧ (fs.nodes 2).parent = some 1 := by
  let mkdir : Call := .mkdir none ['a']
  let symlink : Call := .symlink (some 1) ['b'] ['a']
  let fs₁ := (mkdir.run (fun _ => 0) VNodeFilesystem.init).2
  let fs₂ := (symlink.run (fun _ => 0) fs₁).2
  have hmkdir : Proper (fun _ => 0) VNodeFilesystem.init mkdir :=
    ⟨fun p h => Or.inl (by obtain rfl := Option.some.inj h; rfl), nofun⟩
  have hsymlink : Proper (fun _ => 0) fs₁ symlink := by
    refine ⟨fun p h => Or.inl (by obtain rfl := Option.some.inj h; rfl), ?_⟩
    rintro root filename dest - ⟨p, hp, htaken⟩
    obtain rfl := Option.some.inj hp
    exact absurd htaken (by decide)
  have hrun : GuardedRun (Step fun _ => 0) (fun _ fs e => Proper (fun _ => 0) fs e.1)
      VNodeFilesystem.init [(symlink, .ok 2), (mkdir, .ok 1)] fs₂ := by
    refine .step (.step .init hmkdir ⟨nofun, rfl⟩) hsymlink ⟨fun root h => ?_, rfl⟩
    rw [← Option.some.inj h]
    exact Nat.lt_succ_self 1
  have hat : (fs₂.nodes 1).children.at (fun _ => 0) ['b'] = some 2 := by decide
  obtain ⟨hdir, -, hparent⟩ := (vnode_tree_invariant (fun _ => 0) hrun).1 1 ['b'] 2 hat
  exact ⟨_, fs₂, hrun, rfl, hat, hdir, hparent⟩

/-- **A link over a directory**: `symlink` succeeds on a name that is taken, and the node
it returns is not the one that its parent has under the name; and below a file,
`mkdir` makes a directory. -/
theorem symlink_over_directory :
    (∃ hist fs fs', Run (Step fun _ => 0) VNodeFilesystem.init hist fs
      ∧ Step (fun _ => 0) fs (.symlink none ['a'] [], .ok 2) fs'
      ∧ Taken (fun _ => 0) fs (.symlink none ['a'] [])
      ∧ (fs'.nodes 2).parent = some 0
      ∧ (fs'.nodes 0).children.at (fun _ => 0) ['a'] = some 1)
    ∧ ∃ hist fs, Run (Step fun _ => 0) VNodeFilesystem.init hist fs
      ∧ (fs.nodes 1).children.at (fun _ => 0) ['b'] = some 2 ∧ (fs.nodes 1).type = .FILE := by
  refine ⟨⟨[(.mkdir none ['a'], .ok 1)], _, _, .step .init ⟨nofun, rfl⟩, ⟨nofun, rfl⟩,
    ⟨0, rfl, by decide⟩, by decide, by decide⟩, ?_⟩
  refine ⟨[(.mkdir (some 1) ['b'], .ok 2), (.addNode none ['a'], .ok 1)], _,
    .step (.step .init ⟨nofun, rfl⟩) ⟨fun root h => ?_, rfl⟩, by decide, by decide⟩
  rw [← Option.some.inj h]
  exact Nat.lt_succ_self 1

end VNodeTree

end MierOS.Fs
