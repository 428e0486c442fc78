/-
  MierOS.Fs.VNode
  **NODES THAT LIVE IN MEMORY**: the `VNode` of `vnode.hpp`, and the part that the
  filesystems without a device behind them have in common, an `f_root` and the
  nodes made so far.

  A node is made, told its parent and put among the children of another in one
  go wherever the source does it (`makeNode`).

  Main results: `Linked`, `Linked.makeNode`, `makeNode_at`.
-/
import MierOS.Fs.Vfs
import MierOS.Stdlib.UnorderedMap

namespace MierOS.Fs

open Stdlib
open Function (update update_of_ne update_self)

/-! ## §1. Nodes. -/

/-- What `fs_data` points to: a link's destination, a device's numbers, a node of
`/sys`, or the header of a file in the archive. -/
inductive VNodeData
  | link (destination : Path)
  | dev (major minor : Nat)
  | sysFs
  | initRd (header : BitVec 64)
  deriving Repr, DecidableEq

/-- A `VNode`, by its number. -/
abbrev NodeId := Nat

/-- `VNode`. -/
structure VNode where
  name : Path
  type : VNodeType
  size : Nat
  parent : Option NodeId
  children : UnorderedMap Path NodeId
  data : Option VNodeData

/-- `VNode(..., size, name, type, fs)`. -/
def VNode.new (size : Nat) (name : Path) (type : VNodeType) (data : Option VNodeData) : VNode :=
  { name := name, type := type, size := size, parent := none
    children := UnorderedMap.ofCapacity UnorderedMap.initialBucketSize, data := data }

/-- A filesystem of such nodes: the nodes made so far, those below `next`, and `f_root`. -/
structure VNodeFilesystem where
  nodes : NodeId → VNode
  next : NodeId
  root : NodeId

namespace VNodeFilesystem

variable (hash : Path → Nat) (fs : VNodeFilesystem)

/-- `VNodeFilesystem()`: a root without children. -/
def init : VNodeFilesystem :=
  { nodes := fun _ => VNode.new 0 [] .DIRECTORY none, next := 1, root := 0 }

/-- `root->add_child(child)`. -/
def addChild (root child : NodeId) : VNodeFilesystem :=
  { fs with
    nodes := update fs.nodes root { fs.nodes root with
      children := ((fs.nodes root).children.insert hash (fs.nodes child).name child).2 } }

/-- `node->f_parent = root`. -/
def setParent (node root : NodeId) : VNodeFilesystem :=
  { fs with nodes := update fs.nodes node { fs.nodes node with parent := some root } }

/-- `std::make_shared<VNode>(...)`, `root->add_child(node)`, `node->f_parent = root`. -/
def makeNode (root : NodeId) (size : Nat) (name : Path) (type : VNodeType)
    (data : Option VNodeData) : NodeId × VNodeFilesystem :=
  let node := fs.next
  let fs := { fs with
    nodes := update fs.nodes node (VNode.new size name type data), next := fs.next + 1 }
  (node, (fs.addChild hash root node).setParent node root)

end VNodeFilesystem

/-- **The links between nodes**: a child is stored under its name in the node it has
for a parent, and the root is nobody's child. -/
structure Linked (hash : Path → Nat) (fs : VNodeFilesystem) : Prop where
  root : fs.root < fs.next
  top : (fs.nodes fs.root).parent = none
  maps : ∀ id, (fs.nodes id).children.WF hash
  inside : ∀ id k v, (fs.nodes id).children.at hash k = some v → id < fs.next ∧ v < fs.next
  named : ∀ id k v, (fs.nodes id).children.at hash k = some v →
    (fs.nodes v).name = k ∧ (fs.nodes v).parent = some id

/-! ## §2. A new node. -/

section Nodes

open VNodeFilesystem

variable {hash : Path → Nat} {fs : VNodeFilesystem}

theorem wf_new (hash : Path → Nat) (size : Nat) (name : Path) (type : VNodeType)
    (data : Option VNodeData) : (VNode.new size name type data).children.WF hash :=
  (UnorderedMap.wf_ofCapacity hash (by decide)).1

theorem at_new (size : Nat) (name : Path) (type : VNodeType) (data : Option VNodeData)
    (k : Path) : (VNode.new size name type data).children.at hash k = none :=
  UnorderedMap.at_ofCapacity (by decide) k

/-- The filesystem of a kernel start. -/
theorem Linked.init : Linked hash VNodeFilesystem.init := by
  have hnone : ∀ id k v, (VNodeFilesystem.init.nodes id).children.at hash k ≠ some v := by
    intro id k v h
    rw [show (VNodeFilesystem.init.nodes id).children.at hash k = none from at_new _ _ _ _ k] at h
    exact absurd h (by simp)
  exact ⟨Nat.zero_lt_one, rfl, fun id => wf_new hash _ _ _ _, fun id k v h => absurd h (hnone id k v),
    fun id k v h => absurd h (hnone id k v)⟩

/-- A node that is not there yet has no children. -/
theorem Linked.at_next (hok : Linked hash fs) (k : Path) :
    (fs.nodes fs.next).children.at hash k = none := by
  cases hat : (fs.nodes fs.next).children.at hash k with
  | none => rfl
  | some v => exact absurd (hok.inside _ k v hat).1 (Nat.lt_irrefl _)

/-- The nodes after `makeNode`. -/
theorem makeNode_nodes {root : NodeId} (hroot : root < fs.next) (size : Nat) (name : Path)
    (type : VNodeType) (data : Option VNodeData) (id : NodeId) :
    (fs.makeNode hash root size name type data).2.nodes id
      = if id = fs.next then { VNode.new size name type data with parent := some root }
        else if id = root then
          { fs.nodes root with
            children := ((fs.nodes root).children.insert hash name fs.next).2 }
        else fs.nodes id := by
  have hne : root ≠ fs.next := Nat.ne_of_lt hroot
  unfold VNodeFilesystem.makeNode addChild setParent
  dsimp only
  by_cases hnew : id = fs.next
  · rw [hnew, if_pos rfl, update_self, update_of_ne hne.symm,
      update_self]
  · rw [if_neg hnew, update_of_ne hnew]
    by_cases hid : id = root
    · rw [if_pos hid, hid, update_self, update_of_ne hne, update_self]
      rfl
    · rw [if_neg hid, update_of_ne hid, update_of_ne hnew]

/-- **The children after `makeNode`**: a name that is taken stays with its node. -/
theorem makeNode_at (hok : Linked hash fs) {root : NodeId} (hroot : root < fs.next) (size : Nat)
    (name : Path) (type : VNodeType) (data : Option VNodeData) (id : NodeId) (k : Path) :
    ((fs.makeNode hash root size name type data).2.nodes id).children.at hash k
      = ((fs.nodes id).children.at hash k).or
          (if id = root ∧ k = name then some fs.next else none) := by
  rw [makeNode_nodes hroot]
  by_cases hnew : id = fs.next
  · rw [if_pos hnew, if_neg fun h => Nat.ne_of_lt hroot (h.1.symm.trans hnew), hnew, hok.at_next]
    exact at_new size name type data k
  · rw [if_neg hnew]
    by_cases hid : id = root
    · rw [if_pos hid, hid]
      show ((fs.nodes root).children.insert hash name fs.next).2.at hash k = _
      rw [UnorderedMap.at_insert_or (hok.maps root) name fs.next k]
      by_cases hk : name = k
      · rw [if_pos hk, if_pos ⟨rfl, hk.symm⟩]
      · rw [if_neg hk, if_neg fun h => hk h.2.symm]
    · rw [if_neg hid, if_neg fun h => hid h.1, Option.or_none]

/-- The same under a name that was free. -/
theorem makeNode_at_free (hok : Linked hash fs) {root : NodeId} (hroot : root < fs.next)
    {name : Path} (hfree : (fs.nodes root).children.at hash name = none) (size : Nat)
    (type : VNodeType) (data : Option VNodeData) (id : NodeId) (k : Path) :
    ((fs.makeNode hash root size name type data).2.nodes id).children.at hash k
      = if id = root ∧ k = name then some fs.next else (fs.nodes id).children.at hash k := by
  rw [makeNode_at hok hroot]
  by_cases hplace : id = root ∧ k = name
  · rw [if_pos hplace, if_pos hplace, hplace.1, hplace.2, hfree]
    rfl
  · rw [if_neg hplace, if_neg hplace, Option.or_none]

/-- What stays of the nodes that were there. -/
theorem makeNode_keeps {root : NodeId} (hroot : root < fs.next) (size : Nat) (name : Path)
    (type : VNodeType) (data : Option VNodeData) {id : NodeId} (hid : id < fs.next) :
    let node := (fs.makeNode hash root size name type data).2.nodes id
    node.type = (fs.nodes id).type ∧ node.size = (fs.nodes id).size
      ∧ node.name = (fs.nodes id).name ∧ node.parent = (fs.nodes id).parent := by
  intro node
  have hnode : node = _ := makeNode_nodes hroot size name type data id
  rw [if_neg (Nat.ne_of_lt hid)] at hnode
  rw [hnode]
  split
  · rename_i heq
    rw [heq]
    exact ⟨rfl, rfl, rfl, rfl⟩
  · exact ⟨rfl, rfl, rfl, rfl⟩

/-- An entry after `makeNode` is one of before or the new one. -/
theorem makeNode_entry (hok : Linked hash fs) {root : NodeId} (hroot : root < fs.next)
    {size : Nat} {name : Path} {type : VNodeType} {data : Option VNodeData} {id v : NodeId}
    {k : Path}
    (h : ((fs.makeNode hash root size name type data).2.nodes id).children.at hash k = some v) :
    (fs.nodes id).children.at hash k = some v
      ∨ (id = root ∧ k = name ∧ v = fs.next) := by
  rw [makeNode_at hok hroot] at h
  rcases Option.or_eq_some_iff.mp h with hold | ⟨-, hnew⟩
  · exact Or.inl hold
  · split at hnew
    · rename_i hplace
      exact Or.inr ⟨hplace.1, hplace.2, (Option.some.inj hnew).symm⟩
    · exact absurd hnew (by simp)

/-- **A new node keeps the links**, whether its name was free or not. -/
theorem Linked.makeNode (hok : Linked hash fs) {root : NodeId} (hroot : root < fs.next)
    (size : Nat) (name : Path) (type : VNodeType) (data : Option VNodeData) :
    Linked hash (fs.makeNode hash root size name type data).2 := by
  have hkeeps : ∀ {id}, id < fs.next →
      ((fs.makeNode hash root size name type data).2.nodes id).name = (fs.nodes id).name
        ∧ ((fs.makeNode hash root size name type data).2.nodes id).parent = (fs.nodes id).parent :=
    fun hid => (makeNode_keeps hroot size name type data hid).2.2
  refine ⟨Nat.lt_succ_of_lt hok.root, ?_, fun id => ?_, fun id k v h => ?_, fun id k v h => ?_⟩
  · exact (hkeeps hok.root).2.trans hok.top
  · rw [makeNode_nodes hroot]
    split
    · exact wf_new hash size name type data
    · split
      · exact (hok.maps root).insert name fs.next
      · exact hok.maps id
  · show id < fs.next + 1 ∧ v < fs.next + 1
    rcases makeNode_entry hok hroot h with hold | ⟨rfl, -, rfl⟩
    · exact ⟨Nat.lt_succ_of_lt (hok.inside id k v hold).1,
        Nat.lt_succ_of_lt (hok.inside id k v hold).2⟩
    · exact ⟨Nat.lt_succ_of_lt hroot, Nat.lt_succ_self _⟩
  · rcases makeNode_entry hok hroot h with hold | ⟨rfl, rfl, rfl⟩
    · obtain ⟨hname, hparent⟩ := hkeeps (hok.inside id k v hold).2
      rw [hname, hparent]
      exact hok.named id k v hold
    · rw [makeNode_nodes hroot, if_pos rfl]
      exact ⟨rfl, rfl⟩

theorem Linked.ne_root (hok : Linked hash fs) {id v : NodeId} {k : Path}
    (h : (fs.nodes id).children.at hash k = some v) : v ≠ fs.root := by
  rintro rfl
  have hparent := (hok.named id k _ h).2
  rw [hok.top] at hparent
  exact absurd hparent (by simp)

end Nodes

end MierOS.Fs
