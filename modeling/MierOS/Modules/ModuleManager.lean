/-
  MierOS.Modules.ModuleManager — `ModuleManager`, the dependency list of
  `Module`, and `VFS::mount` of a filesystem that a module drives.

  `find_module` answers a `ValueOrError<u16_t>`.  Both callers in the kernel put
  it into a `u16_t` without unwrapping it, and the only conversion there is goes
  through `operator bool`: what arrives is 1 for every module that is found.

  Main result: `module_resolution_iff`.
-/
import MierOS.Types
import MierOS.Lib.Run
import MierOS.Stdlib.UnorderedMap

namespace MierOS.Modules

open Lib Stdlib

/-! ## §1. Modules and the manager. -/

abbrev Name := List Char

/-- What `load_module` reads out of a module image, and what it meets on the way:
whether the pager finds room, and what the module's own `init` returns. -/
structure Image where
  ident : Bool
  room : Bool
  header : Bool
  name : Name
  dependencies : List Name
  symbolSections : Bool
  symbols : List Name
  undefined : List Name
  initResult : Int
  deriving Repr, DecidableEq

/-- `Module`. -/
structure Module where
  major : Nat
  name : Name
  dependencies : List Nat
  symbols : List Name
  deriving Repr, DecidableEq

/-- `get_symbol_ptr(name) != 0`. -/
def Module.hasSymbol (mod : Module) (name : Name) : Bool := mod.symbols.contains name

/-- How a load ends early; `nullPointer` is a use of the null pointer that
`get_module` or `get_symbol_ptr` gave. -/
inductive LoadError where
  | errno (e : Errno)
  | init (result : Int)
  | nullPointer
  deriving Repr, DecidableEq

/-- `ModuleManager`. -/
structure ModuleManager where
  nextMajor : Nat
  moduleMap : UnorderedMap Nat Module
  moduleCache : UnorderedMap Name Nat
  deriving DecidableEq

/-- `u16_t x = result`: the implicit conversion is `operator bool`, widened. -/
def boolToU16 (result : Except Errno Nat) : Nat :=
  match result with
  | .ok _ => 1
  | .error _ => 0

namespace ModuleManager

/-- `ModuleManager()`. -/
def new : ModuleManager :=
  ⟨1, .ofCapacity UnorderedMap.initialBucketSize, .ofCapacity UnorderedMap.initialBucketSize⟩

variable (hashMajor : Nat → Nat) (hashName : Name → Nat) (kernelSymbol : Name → Bool)

/-- `find_module(name)`. -/
def findModule (mm : ModuleManager) (name : Name) : Except Errno Nat :=
  match mm.moduleCache.at hashName name with
  | some major => .ok major
  | none => .error .ENOEXEC

/-- `get_module(major)`. -/
def getModule (mm : ModuleManager) (major : Nat) : Option Module :=
  mm.moduleMap.at hashMajor major

/-- The search of `link()` for one symbol among the dependencies. -/
def symbolInDependencies (mm : ModuleManager) (symbol : Name) : List Nat → Except LoadError Bool
  | [] => .ok false
  | major :: rest =>
      match mm.getModule hashMajor major with
      | none => .error .nullPointer
      | some mod => if mod.hasSymbol symbol then .ok true else mm.symbolInDependencies symbol rest

/-- `link()`, over the symbols the image leaves open. -/
def link (mm : ModuleManager) (dependencies : List Nat) : List Name → Except LoadError Unit
  | [] => .ok ()
  | symbol :: rest => do
      let found ← if kernelSymbol symbol then .ok true
        else mm.symbolInDependencies hashMajor symbol dependencies
      if found then mm.link dependencies rest else .error (.errno .ENOEXEC)

/-- The dependency loop of `parse_module_header_v1`. -/
def parseDependencies (mm : ModuleManager) (names : List Name) : List Nat :=
  names.map fun depName => boolToU16 (mm.findModule hashName depName)

/-- `Module::load(file)`. -/
def load (mm : ModuleManager) (major : Nat) (image : Image) : Except LoadError Module :=
  if ¬ image.ident then .error (.errno .ENOEXEC)
  else if ¬ image.room then .error (.errno .ENOMEM)
  else if ¬ image.header then .error (.errno .ENOEXEC)
  else
    let dependencies := mm.parseDependencies hashName image.dependencies
    if ¬ image.symbolSections then .error (.errno .ENOEXEC)
    else do
      mm.link hashMajor kernelSymbol dependencies image.undefined
      return ⟨major, image.name, dependencies, image.symbols⟩

/-- `Module::init(argc, args)`.  A module is registered after its own `init`, so of
`preinit` only the null check does anything. -/
def init (mm : ModuleManager) (mod : Module) (image : Image) : Except LoadError Unit :=
  if mod.dependencies.any fun dep => (mm.getModule hashMajor dep).isNone then .error (.init (-1))
  else if ¬ mod.hasSymbol "init".toList then .error .nullPointer
  else if image.initResult ≠ 0 then .error (.init image.initResult)
  else .ok ()

/-- `load_module(modImage, args)`; the caller gets the `major` of the module. -/
def loadModule (mm : ModuleManager) (image : Image) : Except LoadError Module × ModuleManager :=
  let major := mm.nextMajor
  let mm' := { mm with nextMajor := (mm.nextMajor + 1) % 2 ^ 16 }
  match mm'.load hashMajor hashName kernelSymbol major image with
  | .error e => (.error e, mm')
  | .ok mod =>
      match mm'.init hashMajor mod image with
      | .error e => (.error e, mm')
      | .ok () =>
          (.ok mod, { mm' with
            moduleCache := (mm'.moduleCache.insert hashName mod.name mod.major).2
            moduleMap := (mm'.moduleMap.insert hashMajor mod.major mod).2 })

end ModuleManager

/-! ## §2. Mounting. -/

/-- `ModuleFilesystem`; `driver` is the module whose function table it uses. -/
structure ModuleFilesystem where
  major : Nat
  minor : Nat
  driver : Module
  deriving Repr, DecidableEq

/-- What a filesystem module's table does: `mount(fsFile)` with the minor number it
answers, and whether it has `set_fs_object`. -/
structure FilesystemDrivers (F : Type) where
  mount : Module → F → Except Errno Nat
  hasSetFsObject : Module → Bool

/-- How `mount(fsFile, fsType, location)` goes on: `handled` and `handed` go to
`mount(fs, location)`. -/
inductive MountOutcome where
  | handled (handler : Except Errno Nat)
  | failed (e : Errno) (driver : Option Module)
  | nullPointer
  | panicked (driver : Module)
  | handed (fs : ModuleFilesystem)
  deriving DecidableEq

section Mount

variable {F : Type} (hashMajor : Nat → Nat) (hashName : Name → Nat)

def filesystemDriver : Name := "filesystem_driver".toList

/-- `modName`. -/
def modName (fsType : Name) : Name := "FS-".toList ++ fsType

/-- `ModuleFilesystem(major, minor)`. -/
def ModuleFilesystem.new (drivers : FilesystemDrivers F) (mm : ModuleManager)
    (major minor : Nat) : MountOutcome :=
  match mm.getModule hashMajor major with
  | none => .nullPointer
  | some mod =>
      if ¬ mod.hasSymbol filesystemDriver ∨ ¬ drivers.hasSetFsObject mod then .panicked mod
      else .handed ⟨major, minor, mod⟩

/-- `VFS::mount(fsFile, fsType, location)`; a handler answers the filesystem it
made. -/
def mount (filesystems : Name → Option (F → Except Errno Nat)) (drivers : FilesystemDrivers F)
    (mm : ModuleManager) (fsFile : F) (fsType : Name) : MountOutcome :=
  match filesystems fsType with
  | some mountHandler => .handled (mountHandler fsFile)
  | none =>
      let modMajor := boolToU16 (mm.findModule hashName (modName fsType))
      if modMajor = 0 then .failed .ENOTSUP none
      else
        match mm.getModule hashMajor modMajor with
        | none => .nullPointer
        | some mod =>
            if ¬ mod.hasSymbol filesystemDriver then .nullPointer
            else
              match drivers.mount mod fsFile with
              | .error e => .failed e (some mod)
              | .ok minor => ModuleFilesystem.new hashMajor drivers mm modMajor minor

/-- **What the mount is for**: the filesystem is mounted by the driver of `mod`. -/
def mountsWith (drivers : FilesystemDrivers F) (fsFile : F) (mod : Module) : MountOutcome :=
  match drivers.mount mod fsFile with
  | .error e => .failed e (some mod)
  | .ok minor =>
      if ¬ drivers.hasSetFsObject mod then .panicked mod else .handed ⟨mod.major, minor, mod⟩

end Mount

/-! ## §3. The manager over a run. -/

/-- A call of `load_module` and what it answered. -/
abbrev LoadEvent := Image × Except LoadError Module

/-- The modules a history loaded, newest first. -/
def loadedModules (hist : List LoadEvent) : List Module :=
  hist.filterMap fun e => e.2.toOption

/-- The module registered under `name`: the first that was loaded with it. -/
def registered (hist : List LoadEvent) (name : Name) : Option Module :=
  (loadedModules hist).reverse.find? fun mod => mod.name = name

/-- The module registered under a major number. -/
def withMajor (hist : List LoadEvent) (major : Nat) : Option Module :=
  (loadedModules hist).reverse.find? fun mod => mod.major = major

section Runs

variable (hashMajor : Nat → Nat) (hashName : Name → Nat) (kernelSymbol : Name → Bool)

/-- `load_module` is called and answers. -/
def LoadStep (mm : ModuleManager) (e : LoadEvent) (mm' : ModuleManager) : Prop :=
  mm.loadModule hashMajor hashName kernelSymbol e.1 = (e.2, mm')

/-- The dependency list names modules that were loaded before. -/
def NamesLoaded (hist : List LoadEvent) (_ : ModuleManager) (e : LoadEvent) : Prop :=
  ∀ depName ∈ e.1.dependencies, ∃ dep, registered hist depName = some dep

/-- The two tables hold what the history registered. -/
structure Registered (hist : List LoadEvent) (mm : ModuleManager) : Prop where
  wfMap : mm.moduleMap.WF hashMajor
  wfCache : mm.moduleCache.WF hashName
  map : ∀ major, mm.moduleMap.at hashMajor major = withMajor hist major
  cache : ∀ name, mm.moduleCache.at hashName name = (registered hist name).map Module.major

variable {hashMajor hashName kernelSymbol}

/-- The tables before any module is loaded. -/
theorem registered_new : Registered hashMajor hashName [] ModuleManager.new where
  wfMap := (UnorderedMap.wf_ofCapacity hashMajor (by decide)).1
  wfCache := (UnorderedMap.wf_ofCapacity hashName (by decide)).1
  map := fun major => UnorderedMap.at_ofCapacity (by decide) major
  cache := fun name => UnorderedMap.at_ofCapacity (by decide) name

theorem registered_loaded {hist : List LoadEvent} {image : Image} {mod : Module} (name : Name) :
    registered ((image, .ok mod) :: hist) name
      = (registered hist name).or (if mod.name = name then some mod else none) := by
  have hlist : loadedModules ((image, .ok mod) :: hist) = mod :: loadedModules hist := rfl
  unfold registered
  rw [hlist, List.reverse_cons, List.find?_append, List.find?_singleton]
  simp only [decide_eq_true_eq]

theorem withMajor_loaded {hist : List LoadEvent} {image : Image} {mod : Module} (major : Nat) :
    withMajor ((image, .ok mod) :: hist) major
      = (withMajor hist major).or (if mod.major = major then some mod else none) := by
  have hlist : loadedModules ((image, .ok mod) :: hist) = mod :: loadedModules hist := rfl
  unfold withMajor
  rw [hlist, List.reverse_cons, List.find?_append, List.find?_singleton]
  simp only [decide_eq_true_eq]

/-- A registered module stays the one under its name. -/
theorem registered_stable {hist : List LoadEvent} {name : Name} {mod : Module}
    (h : registered hist name = some mod) (e : LoadEvent) :
    registered (e :: hist) name = some mod := by
  obtain ⟨image, result⟩ := e
  cases result with
  | error err => exact h
  | ok new => rw [registered_loaded, h, Option.some_or]

/-- What `Module::load` makes of an image. -/
theorem load_ok {mm : ModuleManager} {major : Nat} {image : Image} {mod : Module}
    (h : mm.load hashMajor hashName kernelSymbol major image = .ok mod) :
    mod = ⟨major, image.name, mm.parseDependencies hashName image.dependencies,
      image.symbols⟩ := by
  unfold ModuleManager.load at h
  split at h
  · exact absurd h (by simp)
  split at h
  · exact absurd h (by simp)
  split at h
  · exact absurd h (by simp)
  dsimp only at h
  split at h
  · exact absurd h (by simp)
  cases hlink : mm.link hashMajor kernelSymbol
      (mm.parseDependencies hashName image.dependencies) image.undefined with
  | error e =>
      rw [hlink] at h
      exact absurd h (by simp [bind, Except.bind])
  | ok _ =>
      rw [hlink] at h
      injection h with h
      exact h.symm

/-- **What `load_module` does**: it registers nothing, or the module whose
dependency list the tables before the call gave. -/
theorem loadModule_cases (mm : ModuleManager) (image : Image) :
    (∃ e, mm.loadModule hashMajor hashName kernelSymbol image
      = (.error e, { mm with nextMajor := (mm.nextMajor + 1) % 2 ^ 16 }))
    ∨ ∃ mod, mod.dependencies = mm.parseDependencies hashName image.dependencies
      ∧ mm.loadModule hashMajor hashName kernelSymbol image
        = (.ok mod,
            ⟨(mm.nextMajor + 1) % 2 ^ 16, (mm.moduleMap.insert hashMajor mod.major mod).2,
              (mm.moduleCache.insert hashName mod.name mod.major).2⟩) := by
  unfold ModuleManager.loadModule
  dsimp only
  split
  · rename_i e _
    exact Or.inl ⟨e, rfl⟩
  · rename_i mod hload
    split
    · rename_i e _
      exact Or.inl ⟨e, rfl⟩
    · refine Or.inr ⟨mod, ?_, rfl⟩
      rw [load_ok hload]
      rfl

/-- **Step lemma**: a load keeps the tables at what the history registered. -/
theorem Registered.load {hist : List LoadEvent} {mm mm' : ModuleManager} {e : LoadEvent}
    (h : Registered hashMajor hashName hist mm)
    (hstep : LoadStep hashMajor hashName kernelSymbol mm e mm') :
    Registered hashMajor hashName (e :: hist) mm' := by
  obtain ⟨image, result⟩ := e
  have hstep : mm.loadModule hashMajor hashName kernelSymbol image = (result, mm') := hstep
  rcases loadModule_cases mm image with ⟨e, hload⟩ | ⟨mod, -, hload⟩
  · rw [hload] at hstep
    obtain ⟨rfl, rfl⟩ := Prod.mk.inj hstep
    exact ⟨h.wfMap, h.wfCache, h.map, h.cache⟩
  · rw [hload] at hstep
    obtain ⟨rfl, rfl⟩ := Prod.mk.inj hstep
    refine ⟨h.wfMap.insert _ _, h.wfCache.insert _ _, ?_, ?_⟩
    · intro major
      rw [withMajor_loaded, ← h.map major]
      exact UnorderedMap.at_insert_or h.wfMap _ _ _
    · intro name
      rw [registered_loaded, Option.map_or, ← h.cache name, apply_ite (Option.map Module.major)]
      exact UnorderedMap.at_insert_or h.wfCache _ _ _

/-- The number a lookup leaves in a `u16_t`. -/
theorem boolToU16_findModule {hist : List LoadEvent} {mm : ModuleManager}
    (h : Registered hashMajor hashName hist mm) (name : Name) :
    boolToU16 (mm.findModule hashName name) = if (registered hist name).isSome then 1 else 0 := by
  unfold ModuleManager.findModule
  rw [h.cache name]
  cases registered hist name <;> rfl

/-- A dependency list as it comes out: a 1 for each module it names. -/
def DependsOnOnes (hist : List LoadEvent) (image : Image) (mod : Module) : Prop :=
  mod.dependencies = image.dependencies.map (fun _ => 1)
    ∧ ∀ depName ∈ image.dependencies, ∃ dep, registered hist depName = some dep

theorem dependsOnOnes_of_run {hist : List LoadEvent} {mm : ModuleManager}
    (hrun : GuardedRun (LoadStep hashMajor hashName kernelSymbol) NamesLoaded .new hist mm) :
    Registered hashMajor hashName hist mm
      ∧ ∀ image mod, (image, .ok mod) ∈ hist → DependsOnOnes hist image mod := by
  refine hrun.historyInvariant (fun hist mm => Registered hashMajor hashName hist mm
    ∧ ∀ image mod, (image, .ok mod) ∈ hist → DependsOnOnes hist image mod)
    ⟨registered_new, fun _ _ hmem => absurd hmem List.not_mem_nil⟩ ?_
  intro hist mm e mm' ⟨hreg, hones⟩ hnames hstep
  refine ⟨hreg.load hstep, ?_⟩
  -- a registered dependency stays registered
  have hstable : ∀ image mod, DependsOnOnes hist image mod → DependsOnOnes (e :: hist) image mod := by
    intro image mod h
    refine ⟨h.1, fun depName hdep => ?_⟩
    obtain ⟨dep, hfound⟩ := h.2 depName hdep
    exact ⟨dep, registered_stable hfound e⟩
  intro image mod hmem
  rcases List.mem_cons.mp hmem with rfl | hold
  · refine hstable image mod ⟨?_, hnames⟩
    have hstep : mm.loadModule hashMajor hashName kernelSymbol image = (.ok mod, mm') := hstep
    rcases loadModule_cases mm image with ⟨e, hload⟩ | ⟨mod', hdeps, hload⟩
    · rw [hload] at hstep
      exact absurd (congrArg Prod.fst hstep) (by simp)
    · rw [hload] at hstep
      have hmod : mod' = mod := Except.ok.inj (congrArg Prod.fst hstep)
      rw [← hmod, hdeps]
      refine List.map_congr_left fun depName hdep => ?_
      obtain ⟨dep, hfound⟩ := hnames depName hdep
      rw [boolToU16_findModule hreg, hfound]
      rfl
  · exact hstable image mod (hones image mod hold)

/-! ## §4. The main result. -/

/-- The dependency list is what the image asks for: the majors of the modules it
names, in order. -/
def Resolved (hist : List LoadEvent) (image : Image) (mod : Module) : Prop :=
  mod.dependencies.map some
    = image.dependencies.map fun depName => (registered hist depName).map Module.major

theorem DependsOnOnes.resolved_iff {hist : List LoadEvent} {image : Image} {mod : Module}
    (h : DependsOnOnes hist image mod) :
    Resolved hist image mod
      ↔ ∀ depName ∈ image.dependencies, (registered hist depName).map Module.major = some 1 := by
  unfold Resolved
  rw [h.1, List.map_map, List.map_inj_left]
  exact forall₂_congr fun _ _ => eq_comm

/-- The module whose function table a mount called. -/
def MountOutcome.driver : MountOutcome → Option Module
  | .handled _ => none
  | .failed _ driver => driver
  | .nullPointer => none
  | .panicked driver => some driver
  | .handed fs => some fs.driver

section Mount

variable {F : Type} {hist : List LoadEvent} {mm : ModuleManager}
  {filesystems : Name → Option (F → Except Errno Nat)} (drivers : FilesystemDrivers F) (fsFile : F)

theorem mountsWith_driver (mod : Module) :
    (mountsWith drivers fsFile mod).driver = some mod := by
  unfold mountsWith
  split
  · rfl
  · split <;> rfl

/-- A module is found under its own major number. -/
theorem withMajor_major {major : Nat} {mod : Module} (h : withMajor hist major = some mod) :
    mod.major = major := by
  have := List.find?_some h
  simpa using this

/-- **Whatever module is meant, the one with major number 1 mounts.** -/
theorem mount_one (h : Registered hashMajor hashName hist mm) {fsType : Name}
    (hnone : filesystems fsType = none) {mod : Module}
    (hreg : registered hist (modName fsType) = some mod) :
    mount hashMajor hashName filesystems drivers mm fsFile fsType
      = match withMajor hist 1 with
        | none => .nullPointer
        | some first =>
            if ¬ first.hasSymbol filesystemDriver then .nullPointer
            else mountsWith drivers fsFile first := by
  have hmajor : boolToU16 (mm.findModule hashName (modName fsType)) = 1 := by
    rw [boolToU16_findModule h, hreg]
    rfl
  have hget : mm.getModule hashMajor 1 = withMajor hist 1 := h.map 1
  unfold mount
  rw [hnone]
  dsimp only
  rw [hmajor, if_neg (by decide), hget]
  cases hone : withMajor hist 1 with
  | none => rfl
  | some first =>
      unfold mountsWith ModuleFilesystem.new
      rw [hget, hone]
      dsimp only
      rw [withMajor_major hone]
      by_cases hsym : first.hasSymbol filesystemDriver = true
      · simp only [hsym, not_true_eq_false, false_or]
      · rw [if_pos hsym, if_pos hsym]

/-- A filesystem is mounted by its own driver exactly when that is module 1. -/
theorem mount_registered_iff (h : Registered hashMajor hashName hist mm) {fsType : Name}
    (hnone : filesystems fsType = none) {mod : Module}
    (hreg : registered hist (modName fsType) = some mod)
    (hdriver : mod.hasSymbol filesystemDriver = true) :
    mount hashMajor hashName filesystems drivers mm fsFile fsType = mountsWith drivers fsFile mod
      ↔ withMajor hist 1 = some mod := by
  rw [mount_one drivers fsFile h hnone hreg]
  constructor
  · intro heq
    have hused := congrArg MountOutcome.driver heq
    rw [mountsWith_driver] at hused
    cases hone : withMajor hist 1 with
    | none =>
        rw [hone] at hused
        exact absurd hused (by simp [MountOutcome.driver])
    | some first =>
        rw [hone] at hused
        by_cases hsym : first.hasSymbol filesystemDriver = true
        · simp only [hsym, not_true_eq_false, if_false] at hused
          rwa [mountsWith_driver] at hused
        · simp [hsym, MountOutcome.driver] at hused
  · intro hone
    rw [hone]
    simp only [hdriver, not_true_eq_false, if_false]

/-- A filesystem nobody registered is refused. -/
theorem mount_unregistered (h : Registered hashMajor hashName hist mm) {fsType : Name}
    (hnone : filesystems fsType = none) (hreg : registered hist (modName fsType) = none) :
    mount hashMajor hashName filesystems drivers mm fsFile fsType = .failed .ENOTSUP none := by
  have hmajor : boolToU16 (mm.findModule hashName (modName fsType)) = 0 := by
    rw [boolToU16_findModule h, hreg]
    rfl
  unfold mount
  rw [hnone]
  dsimp only
  rw [hmajor, if_pos rfl]

end Mount

end Runs

/-- **Names resolve to the first module** (`Module::parse_module_header_v1`,
`VFS::mount`): in every state that loads with known dependencies lead to, the
dependency list of a loaded module is the one it asks for exactly when all that
it names have major number 1, and a filesystem type without a handler is mounted
by the module registered for it exactly when module 1 is that module. -/
theorem module_resolution_iff {F : Type} (hashMajor : Nat → Nat) (hashName : Name → Nat)
    (kernelSymbol : Name → Bool) (filesystems : Name → Option (F → Except Errno Nat))
    (drivers : FilesystemDrivers F) {hist : List LoadEvent} {mm : ModuleManager}
    (hrun : GuardedRun (LoadStep hashMajor hashName kernelSymbol) NamesLoaded .new hist mm) :
    (∀ image mod, (image, .ok mod) ∈ hist → (Resolved hist image mod
      ↔ ∀ depName ∈ image.dependencies, (registered hist depName).map Module.major = some 1))
    ∧ ∀ (fsFile : F) (fsType : Name), filesystems fsType = none →
      (registered hist (modName fsType) = none →
        mount hashMajor hashName filesystems drivers mm fsFile fsType = .failed .ENOTSUP none)
      ∧ ∀ mod, registered hist (modName fsType) = some mod →
        mod.hasSymbol filesystemDriver = true →
        (mount hashMajor hashName filesystems drivers mm fsFile fsType
            = mountsWith drivers fsFile mod
          ↔ withMajor hist 1 = some mod) := by
  obtain ⟨hreg, hones⟩ := dependsOnOnes_of_run hrun
  refine ⟨fun image mod hmem => (hones image mod hmem).resolved_iff, ?_⟩
  intro fsFile fsType hnone
  exact ⟨mount_unregistered drivers fsFile hreg hnone,
    fun mod hmod hdriver => mount_registered_iff drivers fsFile hreg hnone hmod hdriver⟩

/-- A module image with nothing wrong about it. -/
def plainImage (name : String) (dependencies : List String) : Image where
  ident := true
  room := true
  header := true
  name := name.toList
  dependencies := dependencies.map String.toList
  symbolSections := true
  symbols := ["init".toList, filesystemDriver]
  undefined := []
  initResult := 0

/-- The module `plainImage` becomes. -/
def plainModule (major : Nat) (name : String) (dependencies : List Nat) : Module :=
  ⟨major, name.toList, dependencies, ["init".toList, filesystemDriver]⟩

/-- Every driver mounts, with minor number 0. -/
def plainDrivers : FilesystemDrivers Unit := ⟨fun _ _ => .ok 0, fun _ => true⟩

/-- One `load_module` after the other on a new manager. -/
def loads : List Image → List LoadEvent × ModuleManager :=
  List.foldl (fun s image =>
    let called := s.2.loadModule id List.length (fun _ => true) image
    ((image, called.1) :: s.1, called.2)) ([], .new)

theorem guardedRun_load {hist : List LoadEvent} {mm : ModuleManager} (image : Image)
    (hrun : GuardedRun (LoadStep id List.length fun _ => true) NamesLoaded .new hist mm)
    (hnames : NamesLoaded hist mm (image, (mm.loadModule id List.length (fun _ => true) image).1)) :
    GuardedRun (LoadStep id List.length fun _ => true) NamesLoaded .new
      ((image, (mm.loadModule id List.length (fun _ => true) image).1) :: hist)
      (mm.loadModule id List.length (fun _ => true) image).2 :=
  GuardedRun.step hrun hnames rfl

/-- A filesystem driver, then a module that depends on it. -/
def driverFirst : List Image := [plainImage "FS-a" [], plainImage "b" ["FS-a"]]

theorem driverFirst_run : GuardedRun (LoadStep id List.length fun _ => true) NamesLoaded .new
    (loads driverFirst).1 (loads driverFirst).2 := by
  refine guardedRun_load (plainImage "b" ["FS-a"])
    (guardedRun_load (plainImage "FS-a" []) .init ?_) ?_
  · exact fun _ hdep => absurd hdep List.not_mem_nil
  · intro depName hdep
    rw [List.mem_singleton.mp hdep]
    exact ⟨plainModule 1 "FS-a" [], by decide⟩

theorem module_resolution_iff_driverFirst :
    Resolved (loads driverFirst).1 (plainImage "b" ["FS-a"]) (plainModule 2 "b" [1])
    ∧ mount id List.length (fun _ => none) plainDrivers (loads driverFirst).2 () ['a']
      = mountsWith plainDrivers () (plainModule 1 "FS-a" []) := by
  have hiff := module_resolution_iff id List.length (fun _ => true) (fun _ => none) plainDrivers
    driverFirst_run
  exact ⟨(hiff.1 _ _ (by decide)).mpr (by decide),
    ((hiff.2 () ['a'] rfl).2 _ (by decide) (by decide)).mpr (by decide)⟩

/-- The same behind a module that neither is about. -/
def driverSecond : List Image := [plainImage "x" [], plainImage "FS-a" [], plainImage "b" ["FS-a"]]

theorem driverSecond_run : GuardedRun (LoadStep id List.length fun _ => true) NamesLoaded .new
    (loads driverSecond).1 (loads driverSecond).2 := by
  refine guardedRun_load (plainImage "b" ["FS-a"]) (guardedRun_load (plainImage "FS-a" [])
    (guardedRun_load (plainImage "x" []) .init ?_) ?_) ?_
  · exact fun _ hdep => absurd hdep List.not_mem_nil
  · exact fun _ hdep => absurd hdep List.not_mem_nil
  · intro depName hdep
    rw [List.mem_singleton.mp hdep]
    exact ⟨plainModule 2 "FS-a" [], by decide⟩

/-- **The first module answers for the second**: `b` depends on the filesystem driver
with major number 2 and gets 1, and the filesystem is mounted by module 1. -/
theorem second_module_not_resolved :
    GuardedRun (LoadStep id List.length fun _ => true) NamesLoaded .new
      (loads driverSecond).1 (loads driverSecond).2
    ∧ (plainImage "b" ["FS-a"], .ok (plainModule 3 "b" [1])) ∈ (loads driverSecond).1
    ∧ ¬ Resolved (loads driverSecond).1 (plainImage "b" ["FS-a"]) (plainModule 3 "b" [1])
    ∧ registered (loads driverSecond).1 (modName ['a']) = some (plainModule 2 "FS-a" [])
    ∧ mount id List.length (fun _ => none) plainDrivers (loads driverSecond).2 () ['a']
      = mountsWith plainDrivers () (plainModule 1 "x" []) := by
  refine ⟨driverSecond_run, by decide, ?_, by decide, by decide⟩
  unfold Resolved
  decide

end MierOS.Modules
