/-
  MierOS.Fs.DeviceFs
  **DEVICE DISPATCH**: `DeviceFilesystem` of `devicefs.cpp`, whose operations hand a device
  on to the module with its major number.

  `get_function_table` answers with the minor number and the module's table in one pair, and
  with the pair `{ 0, 0 }` when there is no such module.  `RUN_FUNC` looks at the first half
  of the pair only.

  Main results: `KeepsData`, `runFunc_iff`, `device_dispatch_iff`.
-/
import MierOS.Fs.VNodeTree
import MierOS.Modules.ModuleManager

namespace MierOS.Fs

open Lib Stdlib Modules

/-! ## §1. The code. -/

/-- `DeviceFunctionTable`: each function, or null, takes a minor number and its other
arguments.  `R α` is what running a function comes to that returns a `ValueOrError<α>`. -/
structure DeviceFunctionTable (Stream : Type) (R : Type → Type) where
  «open» : Option (Nat → Stream × Int → R Unit)
  close : Option (Nat → Stream → R Unit)
  read : Option (Nat → Stream × Nat × Nat → R Nat)
  write : Option (Nat → Stream × Nat × Nat → R Nat)
  seek : Option (Nat → Stream × Nat × Int → R Nat)
  blockRead : Option (Nat → Nat × Nat × Nat → R Nat)
  blockWrite : Option (Nat → Nat × Nat × Nat → R Nat)
  ioctl : Option (Nat → Nat × Nat → R Int)

/-- What an operation comes to: an error of its own, what the module's function returns, or
a use of the null pointer. -/
inductive Answer (Result : Type) where
  | errno (e : Errno)
  | result (r : Result)
  | nullPointer

/-- `"device_function_table"`. -/
def deviceFunctionTable : Name := "device_function_table".toList

/-- `DeviceFilesystem` with the modules that are loaded and the tables they export. -/
structure DeviceFilesystem (Stream : Type) (R : Type → Type) where
  nodes : VNodeFilesystem
  modules : ModuleManager
  tables : Module → DeviceFunctionTable Stream R
  /-- `stream->node()` -/
  streamNode : Stream → NodeId

namespace DeviceFilesystem

variable {Stream : Type} {R : Type → Type} (hashMajor : Nat → Nat)
  (dev : DeviceFilesystem Stream R)

/-- `mod->get_symbol_ptr("device_function_table")`. -/
def tablePtr (mod : Module) : Option (DeviceFunctionTable Stream R) :=
  if mod.hasSymbol deviceFunctionTable then some (dev.tables mod) else none

/-- `get_function_table(node)`; `none` for a node without numbers. -/
def getFunctionTable (node : NodeId) : Option (Nat × Option (DeviceFunctionTable Stream R)) :=
  match (dev.nodes.nodes node).data with
  | some (.dev major minor) =>
      match dev.modules.getModule hashMajor major with
      | none => some (0, none)
      | some mod => some (minor, dev.tablePtr mod)
  | _ => none

/-- `RUN_FUNC(node, func, ...)`. -/
def runFunc {Args α : Type} (node : NodeId)
    (func : DeviceFunctionTable Stream R → Option (Nat → Args → R α)) (args : Args) :
    Answer (R α) :=
  match dev.getFunctionTable hashMajor node with
  | none => .nullPointer
  | some (key, value) =>
      if key = 0 then .errno .ENODEV
      else
        match value with
        | none => .nullPointer
        | some table =>
            match func table with
            | none => .errno .ENOTSUP
            | some f => .result (f key args)

/-- `open(stream, mode)`. -/
def «open» (stream : Stream) (mode : Int) : Answer (R Unit) :=
  dev.runFunc hashMajor (dev.streamNode stream) (·.open) (stream, mode)

/-- `close(stream)`. -/
def close (stream : Stream) : Answer (R Unit) :=
  dev.runFunc hashMajor (dev.streamNode stream) (·.close) stream

/-- `read(stream, buffer, length)`. -/
def read (stream : Stream) (buffer length : Nat) : Answer (R Nat) :=
  dev.runFunc hashMajor (dev.streamNode stream) (·.read) (stream, buffer, length)

/-- `write(stream, buffer, length)`. -/
def write (stream : Stream) (buffer length : Nat) : Answer (R Nat) :=
  dev.runFunc hashMajor (dev.streamNode stream) (·.write) (stream, buffer, length)

/-- `seek(stream, position, mode)`. -/
def seek (stream : Stream) (position : Nat) (mode : Int) : Answer (R Nat) :=
  dev.runFunc hashMajor (dev.streamNode stream) (·.seek) (stream, position, mode)

/-- `block_read(bdev, lba, sector_count, buffer)`. -/
def blockRead (bdev : NodeId) (lba sectorCount buffer : Nat) : Answer (R Nat) :=
  dev.runFunc hashMajor bdev (·.blockRead) (lba, sectorCount, buffer)

/-- `block_write(bdev, lba, sector_count, buffer)`. -/
def blockWrite (bdev : NodeId) (lba sectorCount buffer : Nat) : Answer (R Nat) :=
  dev.runFunc hashMajor bdev (·.blockWrite) (lba, sectorCount, buffer)

/-- `ioctl(stream, request, arg)`. -/
def ioctl (stream : Stream) (request arg : Nat) : Answer (R Int) :=
  dev.runFunc hashMajor (dev.streamNode stream) (·.ioctl) (request, arg)

end DeviceFilesystem

/-! ## §2. The numbers of a device node. -/

/-- Nodes are only added, and the data of those that were there is as before. -/
structure KeepsData (fs fs' : VNodeFilesystem) : Prop where
  next : fs.next ≤ fs'.next
  data : ∀ id < fs.next, (fs'.nodes id).data = (fs.nodes id).data

namespace KeepsData

open VNodeFilesystem

variable {hash : Path → Nat} {fs fs' fs'' : VNodeFilesystem}

theorem refl : KeepsData fs fs := ⟨Nat.le_refl _, fun _ _ => rfl⟩

theorem trans (h : KeepsData fs fs') (h' : KeepsData fs' fs'') : KeepsData fs fs'' where
  next := Nat.le_trans h.next h'.next
  data id hid := (h'.data id (Nat.lt_of_lt_of_le hid h.next)).trans (h.data id hid)

/-- The data after `makeNode`: only the new node has new data. -/
theorem makeNode_data (root : NodeId) (size : Nat) (name : Path) (type : VNodeType)
    (data : Option VNodeData) (id : NodeId) :
    ((fs.makeNode hash root size name type data).2.nodes id).data
      = if id = fs.next then data else (fs.nodes id).data := by
  unfold VNodeFilesystem.makeNode addChild setParent
  simp only [Function.update_apply]
  by_cases hid : id = fs.next
  · by_cases hroot : fs.next = root <;> simp [hid, hroot, VNode.new]
  · by_cases hroot : id = root
    · have hne : root ≠ fs.next := fun h => hid (hroot.trans h)
      simp [hroot, hne]
    · simp [hid, hroot]

theorem makeNode (root : NodeId) (size : Nat) (name : Path) (type : VNodeType)
    (data : Option VNodeData) : KeepsData fs (fs.makeNode hash root size name type data).2 where
  next := Nat.le_succ fs.next
  data id hid := by
    rw [makeNode_data, if_neg (Nat.ne_of_lt hid)]

theorem mkdir (root : Option NodeId) (filename : Path) :
    KeepsData fs (fs.mkdir hash root filename).2 := by
  unfold VNodeFilesystem.mkdir
  dsimp only
  split
  · exact refl
  · exact makeNode _ _ _ _ _

/-- The walk makes directories at most. -/
theorem resolveLoop (makeDirs : Bool) (parts : List Path) (root : NodeId) :
    KeepsData fs (resolveLoop hash makeDirs parts fs root).2 := by
  induction parts generalizing fs root with
  | nil => exact refl
  | cons part parts ih =>
      cases parts with
      | nil => exact refl
      | cons next parts =>
          unfold VNodeFilesystem.resolveLoop
          split
          · exact refl
          · split
            · exact ih root
            · split
              · exact ih _
              · split
                · have hmade : KeepsData fs (fs.mkdir hash (some root) part).2 :=
                    mkdir (some root) part
                  split
                  · rename_i nextRoot fs' hmkdir
                    rw [hmkdir] at hmade
                    exact hmade.trans (ih nextRoot)
                  · rename_i errno fs' hmkdir
                    rw [hmkdir] at hmade
                    exact hmade
                · exact refl

theorem resolvePath (path : Path) (root : Option NodeId) (makeDirs : Bool) :
    KeepsData fs (fs.resolvePath hash path root makeDirs).2 :=
  resolveLoop makeDirs (components path) (root.getD fs.root)

theorem addAt (root : Option NodeId) (path : Path) (type : VNodeType) (data : VNodeData) :
    KeepsData fs (fs.addAt hash root path type data).2 := by
  have hwalk : KeepsData fs (fs.resolvePath hash path root true).2 := resolvePath path root true
  unfold VNodeFilesystem.addAt
  split
  · rename_i errno fs' hresolve
    rw [hresolve] at hwalk
    exact hwalk
  · rename_i p filename fs' hresolve
    rw [hresolve] at hwalk
    split
    · exact hwalk
    · exact hwalk.trans (makeNode _ _ _ _ _)

/-- **The node that `add_dev` and `add_node` make** has the data they were given. -/
theorem addAt_data {root : Option NodeId} {path : Path} {type : VNodeType} {data : VNodeData}
    {node : NodeId} (h : fs.addAt hash root path type data = (.ok node, fs')) :
    node < fs'.next ∧ (fs'.nodes node).data = some data := by
  unfold VNodeFilesystem.addAt at h
  split at h
  · exact absurd (congrArg Prod.fst h) (by simp)
  · rename_i p filename fs₁ hresolve
    split at h
    · exact absurd (congrArg Prod.fst h) (by simp)
    · obtain ⟨hnode, rfl⟩ := Prod.mk.inj h
      obtain rfl := Except.ok.inj hnode
      refine ⟨Nat.lt_succ_self fs₁.next, ?_⟩
      show ((fs₁.makeNode hash p 0 filename type (some data)).2.nodes fs₁.next).data = some data
      rw [makeNode_data, if_pos rfl]

/-- **Step lemma**: no call writes the data of a node that is there. -/
theorem step {e : VNodeTree.Call × Except Errno NodeId} (hs : VNodeTree.Step hash fs e fs') :
    KeepsData fs fs' := by
  obtain ⟨call, result⟩ := e
  have hrun : (call.run hash fs).2 = fs' := congrArg Prod.snd hs.2
  rw [← hrun]
  cases call with
  | mkdir root filename => exact mkdir root filename
  | symlink root filename dest => exact makeNode _ _ _ _ _
  | addDirectory root path =>
      have hwalk : KeepsData fs (fs.resolvePath hash path root true).2 :=
        resolvePath path root true
      show KeepsData fs (fs.addDirectory hash root path).2
      unfold VNodeFilesystem.addDirectory
      split
      · rename_i errno fs' hresolve
        rw [hresolve] at hwalk
        exact hwalk
      · rename_i p filename fs' hresolve
        rw [hresolve] at hwalk
        exact hwalk.trans (mkdir _ _)
  | addDev path major minor deviceType => exact addAt _ _ _ _
  | addNode root path => exact addAt _ _ _ _

/-- **Run lemma.** -/
theorem run {hist : List (VNodeTree.Call × Except Errno NodeId)}
    (hrun : Run (VNodeTree.Step hash) fs hist fs') : KeepsData fs fs' :=
  hrun.invariant (KeepsData fs) refl fun _ _ _ hkept hs => hkept.trans (step hs)

end KeepsData

/-! ## §3. One operation. -/

section Dispatch

variable {Stream : Type} {R : Type → Type} {hashMajor : Nat → Nat}
  {dev : DeviceFilesystem Stream R} {node : NodeId} {major minor : Nat} {mod : Option Module}

/-- What an operation is for, given the module with the node's major number: the module's
function with this minor number, `ENOTSUP` when there is no function, `ENODEV` when there
is no module. -/
def DeviceFilesystem.expected {Args α : Type} (dev : DeviceFilesystem Stream R)
    (mod : Option Module) (minor : Nat)
    (func : DeviceFunctionTable Stream R → Option (Nat → Args → R α)) (args : Args) :
    Answer (R α) :=
  match mod with
  | none => .errno .ENODEV
  | some mod =>
      match func (dev.tables mod) with
      | none => .errno .ENOTSUP
      | some f => .result (f minor args)

/-- The node has these numbers, and `mod` is the module with the major one, exporting its
table. -/
structure IsDevice (hashMajor : Nat → Nat) (dev : DeviceFilesystem Stream R) (node : NodeId)
    (major minor : Nat) (mod : Option Module) : Prop where
  numbers : (dev.nodes.nodes node).data = some (.dev major minor)
  loaded : dev.modules.getModule hashMajor major = mod
  exported : ∀ m, mod = some m → m.hasSymbol deviceFunctionTable = true

theorem IsDevice.getFunctionTable (h : IsDevice hashMajor dev node major minor mod) :
    dev.getFunctionTable hashMajor node
      = some (mod.elim (0, none) fun m => (minor, some (dev.tables m))) := by
  unfold DeviceFilesystem.getFunctionTable
  rw [h.numbers]
  dsimp only
  rw [h.loaded]
  cases hmod : mod with
  | none => rfl
  | some m =>
      unfold DeviceFilesystem.tablePtr
      dsimp only [Option.elim]
      rw [if_pos (h.exported m hmod)]

/-- **`RUN_FUNC`** does what the operation is for exactly when the minor number is not the
0 that stands for no module. -/
theorem runFunc_iff {Args α : Type} (h : IsDevice hashMajor dev node major minor mod)
    (func : DeviceFunctionTable Stream R → Option (Nat → Args → R α)) (args : Args) :
    dev.runFunc hashMajor node func args = dev.expected mod minor func args
      ↔ minor ≠ 0 ∨ mod = none := by
  unfold DeviceFilesystem.runFunc DeviceFilesystem.expected
  rw [h.getFunctionTable]
  cases mod with
  | none => simp
  | some m =>
      rw [or_iff_left (Option.some_ne_none m)]
      dsimp only [Option.elim]
      by_cases hminor : minor = 0
      · rw [if_pos hminor]
        refine ⟨fun heq => ?_, fun hne => absurd hminor hne⟩
        -- a loaded module is never answered with ENODEV
        cases hfunc : func (dev.tables m) with
        | none =>
            rw [hfunc] at heq
            cases heq
        | some f =>
            rw [hfunc] at heq
            cases heq
      · rw [if_neg hminor]
        refine ⟨fun _ => hminor, fun _ => ?_⟩
        cases func (dev.tables m) <;> rfl

/-- **The eight operations on a node** do what they are for. -/
structure Dispatches (hashMajor : Nat → Nat) (dev : DeviceFilesystem Stream R) (node : NodeId)
    (mod : Option Module) (minor : Nat) : Prop where
  «open» : ∀ stream mode, dev.streamNode stream = node →
    dev.open hashMajor stream mode = dev.expected mod minor (·.open) (stream, mode)
  close : ∀ stream, dev.streamNode stream = node →
    dev.close hashMajor stream = dev.expected mod minor (·.close) stream
  read : ∀ stream buffer length, dev.streamNode stream = node →
    dev.read hashMajor stream buffer length
      = dev.expected mod minor (·.read) (stream, buffer, length)
  write : ∀ stream buffer length, dev.streamNode stream = node →
    dev.write hashMajor stream buffer length
      = dev.expected mod minor (·.write) (stream, buffer, length)
  seek : ∀ stream position mode, dev.streamNode stream = node →
    dev.seek hashMajor stream position mode
      = dev.expected mod minor (·.seek) (stream, position, mode)
  ioctl : ∀ stream request arg, dev.streamNode stream = node →
    dev.ioctl hashMajor stream request arg = dev.expected mod minor (·.ioctl) (request, arg)
  blockRead : ∀ lba sectorCount buffer,
    dev.blockRead hashMajor node lba sectorCount buffer
      = dev.expected mod minor (·.blockRead) (lba, sectorCount, buffer)
  blockWrite : ∀ lba sectorCount buffer,
    dev.blockWrite hashMajor node lba sectorCount buffer
      = dev.expected mod minor (·.blockWrite) (lba, sectorCount, buffer)

theorem IsDevice.dispatches_iff (h : IsDevice hashMajor dev node major minor mod) :
    Dispatches hashMajor dev node mod minor ↔ minor ≠ 0 ∨ mod = none := by
  constructor
  · -- any one of them shows the condition
    intro hall
    exact (runFunc_iff h (·.blockRead) (0, 0, 0)).mp (hall.blockRead 0 0 0)
  · intro hminor
    -- one statement about `RUN_FUNC` for all eight
    have hrun : ∀ {Args α : Type} (func : DeviceFunctionTable Stream R →
        Option (Nat → Args → R α)) (args : Args),
        dev.runFunc hashMajor node func args = dev.expected mod minor func args :=
      fun func args => (runFunc_iff h func args).mpr hminor
    constructor
    case «open» =>
      rintro stream mode rfl
      exact hrun (·.open) (stream, mode)
    case close =>
      rintro stream rfl
      exact hrun (·.close) stream
    case read =>
      rintro stream buffer length rfl
      exact hrun (·.read) (stream, buffer, length)
    case write =>
      rintro stream buffer length rfl
      exact hrun (·.write) (stream, buffer, length)
    case seek =>
      rintro stream position mode rfl
      exact hrun (·.seek) (stream, position, mode)
    case ioctl =>
      rintro stream request arg rfl
      exact hrun (·.ioctl) (request, arg)
    case blockRead => exact fun lba count buffer => hrun (·.blockRead) (lba, count, buffer)
    case blockWrite => exact fun lba count buffer => hrun (·.blockWrite) (lba, count, buffer)

end Dispatch

/-! ## §4. The devices of `add_dev`. -/

/-- **DEVICE DISPATCH.**  The node that `add_dev` returned, after any calls on the tree and
any loads of modules: the eight operations hand it on to the module with its major number
exactly when its minor number is not 0 or there is no such module. -/
theorem device_dispatch_iff {Stream : Type} {R : Type → Type} (hash : Path → Nat)
    (hashMajor : Nat → Nat) (hashName : Name → Nat) (kernelSymbol : Name → Bool)
    (dev : DeviceFilesystem Stream R) {fs fs' : VNodeFilesystem} {path : Path} {major minor : Nat}
    {deviceType : VNodeType} {node : NodeId}
    (hadd : fs.addDev hash path major minor deviceType = (.ok node, fs'))
    {calls : List (VNodeTree.Call × Except Errno NodeId)}
    (hcalls : Run (VNodeTree.Step hash) fs' calls dev.nodes) {loads : List LoadEvent}
    (hloads : Run (LoadStep hashMajor hashName kernelSymbol) .new loads dev.modules)
    (hexports : ∀ mod, withMajor loads major = some mod →
      mod.hasSymbol deviceFunctionTable = true) :
    Dispatches hashMajor dev node (withMajor loads major) minor
      ↔ minor ≠ 0 ∨ withMajor loads major = none := by
  have hreg : Registered hashMajor hashName loads dev.modules :=
    hloads.historyInvariant (Registered hashMajor hashName) registered_new
      fun _ _ _ _ hreg hstep => hreg.load hstep
  obtain ⟨hnode, hdata⟩ := KeepsData.addAt_data hadd
  have hkept := (KeepsData.run hcalls).data node hnode
  exact IsDevice.dispatches_iff ⟨hkept.trans hdata, hreg.map major, hexports⟩

/-- The image of a driver that exports a table. -/
def serialImage : Image where
  ident := true
  room := true
  header := true
  name := "pc_serial".toList
  dependencies := []
  symbolSections := true
  symbols := ["init".toList, deviceFunctionTable]
  undefined := []
  initResult := 0

/-- The module it becomes. -/
def serialModule : Module := ⟨1, "pc_serial".toList, [], ["init".toList, deviceFunctionTable]⟩

/-- The driver is loaded with major number 1, and `ttyS?` is a device of it with this minor
number.  Of the table there is `write` alone, which answers with the minor number. -/
def serialDevices (minor : Nat) : DeviceFilesystem Nat (Except Errno) where
  nodes := (VNodeFilesystem.init.addDev List.length "ttyS?".toList 1 minor .CHARACTER_DEVICE).2
  modules := (ModuleManager.new.loadModule id List.length (fun _ => true) serialImage).2
  tables _ :=
    { «open» := none, close := none, read := none, write := some fun minor _ => .ok minor
      seek := none, blockRead := none, blockWrite := none, ioctl := none }
  streamNode := id

theorem serialDevices_loads (minor : Nat) :
    Run (LoadStep id List.length fun _ => true) .new [(serialImage, .ok serialModule)]
      (serialDevices minor).modules := by
  refine .step .init ?_
  show _ = _
  rfl

/-- `add_dev` makes the node. -/
theorem serialDevices_node (minor : Nat) :
    VNodeFilesystem.init.addDev List.length "ttyS?".toList 1 minor .CHARACTER_DEVICE
      = (.ok 1, (serialDevices minor).nodes) := rfl

theorem serialDevices_loaded :
    withMajor [(serialImage, .ok serialModule)] 1 = some serialModule := by decide

/-- With minor number 1 the device is written to. -/
theorem device_dispatch_iff_serial :
    (serialDevices 1).write id 1 0 5 = .result (.ok 1) := by
  have hexports : ∀ mod, withMajor [(serialImage, .ok serialModule)] 1 = some mod →
      mod.hasSymbol deviceFunctionTable = true := by
    intro mod hmod
    rw [serialDevices_loaded] at hmod
    obtain rfl := Option.some.inj hmod
    decide
  have hall := (device_dispatch_iff List.length id List.length (fun _ => true) (serialDevices 1)
    (serialDevices_node 1) .init (serialDevices_loads 1) hexports).mpr (Or.inl Nat.one_ne_zero)
  exact hall.write 1 0 5 rfl

/-- **The first port**, with minor number 0: its module is loaded and exports the table, and
the node answers `ENODEV`. -/
theorem minor_zero_refused :
    VNodeFilesystem.init.addDev List.length "ttyS?".toList 1 0 .CHARACTER_DEVICE
        = (.ok 1, (serialDevices 0).nodes)
      ∧ withMajor [(serialImage, .ok serialModule)] 1 = some serialModule
      ∧ serialModule.hasSymbol deviceFunctionTable = true
      ∧ (serialDevices 0).write id 1 0 5 = .errno .ENODEV
      ∧ ¬ Dispatches id (serialDevices 0) 1 (some serialModule) 0 := by
  have hdevice : IsDevice id (serialDevices 0) 1 1 0 (some serialModule) :=
    ⟨by decide, by decide, by decide⟩
  refine ⟨serialDevices_node 0, serialDevices_loaded, by decide, rfl, fun hall => ?_⟩
  exact absurd (hdevice.dispatches_iff.mp hall) (by decide)

end MierOS.Fs
