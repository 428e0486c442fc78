/-
  MierOS.Modules.Link
  **RELOCATION**: `Module::link` of `module.cpp`, and whether its slots agree with
  `get_symbol_ptr`.

  Symbol addresses in a module are relative to its load base.  `get_symbol_ptr` adds
  the base; `link` does not where the module itself defines the symbol.  And where it
  asks the dependencies it takes any non-null pointer for a definition, which the entry
  of an undefined symbol gives as well: 0, plus the base.

  The tables that `link` reads are values here, apart from the memory it writes.

  Main result: `link_agrees_iff`.
-/
import MierOS.Lib.WordMemory
import MierOS.Modules.ModuleManager

namespace MierOS.Modules.Linking

open Lib

/-! ## §1. The code. -/

/-- The name and `addr` of an `Elf64_Symbol`. -/
structure Symbol where
  name : Name
  addr : Word
  deriving Repr, DecidableEq

/-- `Elf64_Rela`. -/
structure Rela where
  addr : Word
  info : Word
  addend : Word
  deriving Repr, DecidableEq

/-- `ELF64_REL_SYM`. -/
def Rela.sym (rela : Rela) : Nat := rela.info.toNat / 2 ^ 32

/-- `ELF64_REL_TYPE`. -/
def Rela.type (rela : Rela) : Nat := rela.info.toNat % 2 ^ 32

/-- `R_X86_64_GLOB_DAT` and `R_X86_64_RELATIVE`. -/
def globDat : Nat := 6
def relative : Nat := 8

/-- `ST_RELA`. -/
def stRela : Nat := 4

/-- A section, with the `f_size / f_entry_size` entries it holds if it is a `RELA`
section. -/
structure Section where
  type : Nat
  relas : List Rela
  deriving Repr, DecidableEq

/-- What `link` uses of a `Module`. -/
structure LoadedModule where
  baseAddr : Word
  sectionMap : List Section
  symbols : List Symbol
  dependencies : List Nat
  deriving Repr, DecidableEq

/-- How `link` ends other than by a 0: with a code, or at a null `Module*`. -/
inductive LinkStop where
  | code (status : Nat)
  | nullPointer
  deriving Repr, DecidableEq

namespace LoadedModule

/-- `get_symbol(index)`. -/
def symbolAt (mod : LoadedModule) (index : Nat) : Option Symbol := mod.symbols[index]?

/-- `get_symbol(name)`. -/
def getSymbol (mod : LoadedModule) (name : Name) : Option Symbol :=
  mod.symbols.find? (fun symbol => symbol.name = name)

/-- `get_symbol_ptr(name)`. -/
def getSymbolPtr (mod : LoadedModule) (name : Name) : Word :=
  match mod.getSymbol name with
  | some symbol => symbol.addr + mod.baseAddr
  | none => 0

/-- `f_base_addr + rela.addr`. -/
def slot (mod : LoadedModule) (rela : Rela) : Word := mod.baseAddr + rela.addr

end LoadedModule

/-- `find_kernel_symbol(name)`. -/
def findKernelSymbol (kernelSymbols : List Symbol) (name : Name) : Option Symbol :=
  kernelSymbols.find? (fun symbol => name = symbol.name)

section Code

variable (getModule : Nat → Option LoadedModule) (kernelSymbols : List Symbol)

/-- The loop over the dependencies; a search that finds nothing is `return 6`. -/
def searchDependencies (name : Name) : List Nat → Except LinkStop Word
  | [] => .error (.code 6)
  | major :: rest =>
      match getModule major with
      | none => .error .nullPointer
      | some mod =>
          if mod.getSymbolPtr name ≠ 0 then .ok (mod.getSymbolPtr name)
          else searchDependencies name rest

/-- What goes into a `GLOB_DAT` slot for this symbol. -/
def resolve (mod : LoadedModule) (symbol : Symbol) : Except LinkStop Word :=
  if symbol.addr ≠ 0 then .ok symbol.addr
  else
    match findKernelSymbol kernelSymbols symbol.name with
    | some kernSym => .ok kernSym.addr
    | none => searchDependencies getModule symbol.name mod.dependencies

/-- One relocation; those of an unknown type are only reported. -/
def relocate (mod : LoadedModule) (mem : ByteMemory) (rela : Rela) : Except LinkStop ByteMemory :=
  if rela.type = globDat then
    match mod.symbolAt rela.sym with
    | none => .error (.code 4)
    | some symbol =>
        match resolve getModule kernelSymbols mod symbol with
        | .error stop => .error stop
        | .ok value => .ok (writeWord mem (mod.slot rela) value)
  else if rela.type = relative then
    .ok (writeWord mem (mod.slot rela) (mod.baseAddr + rela.addend))
  else .ok mem

/-- `Module::link()`: the memory after a `return 0`. -/
def link (mod : LoadedModule) (mem : ByteMemory) : Except LinkStop ByteMemory :=
  mod.sectionMap.foldlM (fun mem sec =>
    if sec.type = stRela then sec.relas.foldlM (relocate getModule kernelSymbols mod) mem
    else .ok mem) mem

end Code

/-! ## §2. What relocation is for. -/

section Purpose

variable (getModule : Nat → Option LoadedModule) (kernelSymbols : List Symbol)

/-- The module has an entry of this name and the entry is a definition. -/
def LoadedModule.defines (mod : LoadedModule) (name : Name) : Bool :=
  (mod.getSymbol name).any fun symbol => symbol.addr ≠ 0

/-- The first dependency that defines the name. -/
def definingDependency (name : Name) (dependencies : List Nat) : Option LoadedModule :=
  (dependencies.filterMap getModule).find? fun dep => dep.defines name

/-- **The run-time address** of a symbol of the module. -/
def runTimeAddress (mod : LoadedModule) (symbol : Symbol) : Option Word :=
  if symbol.addr ≠ 0 then some (mod.getSymbolPtr symbol.name)
  else
    match findKernelSymbol kernelSymbols symbol.name with
    | some kernSym => some kernSym.addr
    | none =>
        (definingDependency getModule symbol.name mod.dependencies).map
          fun dep => dep.getSymbolPtr symbol.name

/-- All relocations, in the order of the sections. -/
def LoadedModule.relocations (mod : LoadedModule) : List Rela :=
  (mod.sectionMap.filter fun sec => sec.type = stRela).flatMap Section.relas

/-- A `GLOB_DAT` relocation of a symbol that is out of range or defined nowhere. -/
def Unresolvable (mod : LoadedModule) (rela : Rela) : Prop :=
  rela.type = globDat
    ∧ (mod.symbolAt rela.sym).bind (runTimeAddress getModule kernelSymbols mod) = none

/-- `rela` is the last of the relocations that writes to its slot. -/
def LastAtSlot (mod : LoadedModule) (rela : Rela) (later : List Rela) : Prop :=
  ∀ rela' ∈ later, rela'.type = globDat ∨ rela'.type = relative →
    ¬ Overlap (mod.slot rela) (mod.slot rela')

/-- **The slots hold what they are to hold.** -/
def SlotsAgree (mod : LoadedModule) (mem : ByteMemory) : Prop :=
  ∀ earlier rela later, mod.relocations = earlier ++ rela :: later → LastAtSlot mod rela later →
    (rela.type = globDat → ∀ symbol value, mod.symbolAt rela.sym = some symbol →
      runTimeAddress getModule kernelSymbols mod symbol = some value →
        HoldsWord mem (mod.slot rela) value)
    ∧ (rela.type = relative → HoldsWord mem (mod.slot rela) (mod.baseAddr + rela.addend))

/-- **Relocation agrees with symbol lookup**: `link` returns, it fails if and only if some
relocation is unresolvable, and otherwise the slots agree. -/
def LinkAgrees (mod : LoadedModule) (mem : ByteMemory) : Prop :=
  match link getModule kernelSymbols mod mem with
  | .error .nullPointer => False
  | .error (.code _) => ∃ rela ∈ mod.relocations, Unresolvable getModule kernelSymbols mod rela
  | .ok mem' => (∀ rela ∈ mod.relocations, ¬ Unresolvable getModule kernelSymbols mod rela)
      ∧ SlotsAgree getModule kernelSymbols mod mem'

end Purpose

/-! ## §3. When a relocation goes through. -/

variable {getModule : Nat → Option LoadedModule} {kernelSymbols : List Symbol}
variable {mod : LoadedModule} {mem mem' : ByteMemory} {rela : Rela} {symbol : Symbol} {name : Name}
  {dependencies : List Nat}

/-- The search goes past this dependency: a loaded module without a pointer for the name. -/
def Passed (getModule : Nat → Option LoadedModule) (name : Name) (major : Nat) : Prop :=
  ∃ dep, getModule major = some dep ∧ dep.getSymbolPtr name = 0

/-- The search ends at this module. -/
def Hit (getModule : Nat → Option LoadedModule) (name : Name) (dependencies : List Nat)
    (dep : LoadedModule) : Prop :=
  ∃ passed major rest, dependencies = passed ++ major :: rest
    ∧ (∀ major ∈ passed, Passed getModule name major)
    ∧ getModule major = some dep ∧ dep.getSymbolPtr name ≠ 0

theorem hit_cons {major : Nat} {dep : LoadedModule} :
    Hit getModule name (major :: dependencies) dep
      ↔ getModule major = some dep ∧ dep.getSymbolPtr name ≠ 0
        ∨ Passed getModule name major ∧ Hit getModule name dependencies dep := by
  constructor
  · intro ⟨passed, at', rest, heq, hall, hget⟩
    cases passed with
    | nil =>
        obtain ⟨rfl, -⟩ := List.cons.inj heq
        exact Or.inl hget
    | cons first passed =>
        obtain ⟨rfl, rfl⟩ := List.cons.inj heq
        obtain ⟨hfirst, hall⟩ := List.forall_mem_cons.mp hall
        exact Or.inr ⟨hfirst, passed, at', rest, rfl, hall, hget⟩
  · intro h
    rcases h with hget | ⟨hpassed, passed, at', rest, rfl, hall, hget⟩
    · exact ⟨[], major, dependencies, rfl, fun m hm => absurd hm List.not_mem_nil, hget⟩
    · exact ⟨major :: passed, at', rest, rfl, List.forall_mem_cons.mpr ⟨hpassed, hall⟩, hget⟩

theorem passed_iff {major : Nat} {dep : LoadedModule} (hget : getModule major = some dep) :
    Passed getModule name major ↔ dep.getSymbolPtr name = 0 := by
  constructor
  · intro ⟨d, hd, hptr⟩
    rw [hget] at hd
    exact Option.some.inj hd ▸ hptr
  · exact fun hptr => ⟨dep, hget, hptr⟩

/-- **What the search comes to**: the pointer of the module it hits, or a 6 behind the last
dependency, or a null pointer. -/
theorem searchDependencies_cases (getModule : Nat → Option LoadedModule) (name : Name)
    (dependencies : List Nat) :
    (∃ dep, Hit getModule name dependencies dep
        ∧ (¬ ∀ major ∈ dependencies, Passed getModule name major)
        ∧ searchDependencies getModule name dependencies = .ok (dep.getSymbolPtr name))
    ∨ ((∀ dep, ¬ Hit getModule name dependencies dep)
        ∧ (∀ major ∈ dependencies, Passed getModule name major)
        ∧ searchDependencies getModule name dependencies = .error (.code 6))
    ∨ ((∀ dep, ¬ Hit getModule name dependencies dep)
        ∧ (¬ ∀ major ∈ dependencies, Passed getModule name major)
        ∧ searchDependencies getModule name dependencies = .error .nullPointer) := by
  induction dependencies with
  | nil =>
      refine Or.inr (Or.inl ⟨fun dep ⟨passed, major, rest, heq, _⟩ => ?_,
        fun major hm => absurd hm List.not_mem_nil, rfl⟩)
      exact absurd heq (by simp)
  | cons major rest ih =>
      unfold searchDependencies
      simp only [hit_cons, List.forall_mem_cons]
      cases hget : getModule major with
      | none =>
          -- `get_module` has no module of this number, and `link` asks it for a symbol
          have hnot : ¬ Passed getModule name major := fun ⟨dep, hdep, _⟩ => by
            rw [hget] at hdep
            cases hdep
          refine Or.inr (Or.inr ⟨fun dep h => ?_, fun h => hnot h.1, rfl⟩)
          rcases h with ⟨hdep, -⟩ | ⟨hpassed, -⟩
          · cases hdep
          · exact hnot hpassed
      | some dep =>
          by_cases hptr : dep.getSymbolPtr name = 0
          · -- a null pointer sends the search on, so the rest decides
            have hpassed : Passed getModule name major := (passed_iff hget).mpr hptr
            have hnext : ∀ d, ¬ Hit getModule name rest d →
                ¬ (some dep = some d ∧ d.getSymbolPtr name ≠ 0
                  ∨ Passed getModule name major ∧ Hit getModule name rest d) := by
              intro d hnone h
              rcases h with ⟨hd, hne⟩ | ⟨-, hhit⟩
              · exact hne (Option.some.inj hd ▸ hptr)
              · exact hnone hhit
            simp only [hptr, ne_eq, not_true_eq_false, if_false]
            rcases ih with ⟨d, hhit, hnot, heq⟩ | ⟨hnone, hall, heq⟩ | ⟨hnone, hnot, heq⟩
            · exact Or.inl ⟨d, Or.inr ⟨hpassed, hhit⟩, fun h => hnot h.2, heq⟩
            · exact Or.inr (Or.inl ⟨fun d => hnext d (hnone d), ⟨hpassed, hall⟩, heq⟩)
            · exact Or.inr (Or.inr ⟨fun d => hnext d (hnone d), fun h => hnot h.2, heq⟩)
          · refine Or.inl ⟨dep, Or.inl ⟨rfl, hptr⟩, fun h => hptr ((passed_iff hget).mp h.1), ?_⟩
            simp only [hptr, ne_eq, not_false_eq_true, if_true]

/-- **The search ends at one module.** -/
theorem Hit.ok {dep : LoadedModule} (h : Hit getModule name dependencies dep) :
    searchDependencies getModule name dependencies = .ok (dep.getSymbolPtr name) := by
  induction dependencies with
  | nil =>
      obtain ⟨passed, major, rest, heq, -⟩ := h
      exact absurd heq (by simp)
  | cons major rest ih =>
      unfold searchDependencies
      rcases hit_cons.mp h with ⟨hget, hptr⟩ | ⟨⟨d, hget, hptr⟩, hhit⟩
      · simp only [hget, hptr, ne_eq, not_false_eq_true, if_true]
      · simp only [hget, hptr, ne_eq, not_true_eq_false, if_false]
        exact ih hhit

/-- The module, the kernel or the module that the search hits has the symbol. -/
def Found (getModule : Nat → Option LoadedModule) (kernelSymbols : List Symbol)
    (mod : LoadedModule) (symbol : Symbol) : Prop :=
  symbol.addr ≠ 0 ∨ findKernelSymbol kernelSymbols symbol.name ≠ none
    ∨ ∃ dep, Hit getModule symbol.name mod.dependencies dep

/-- None of the module, the kernel and the dependencies, all of them loaded, has it. -/
def Nowhere (getModule : Nat → Option LoadedModule) (kernelSymbols : List Symbol)
    (mod : LoadedModule) (symbol : Symbol) : Prop :=
  symbol.addr = 0 ∧ findKernelSymbol kernelSymbols symbol.name = none
    ∧ ∀ major ∈ mod.dependencies, Passed getModule symbol.name major

/-- The three ways in which `resolve` ends. -/
theorem resolve_cases (getModule : Nat → Option LoadedModule) (kernelSymbols : List Symbol)
    (mod : LoadedModule) (symbol : Symbol) :
    (Found getModule kernelSymbols mod symbol ∧ ¬ Nowhere getModule kernelSymbols mod symbol
        ∧ ∃ value, resolve getModule kernelSymbols mod symbol = .ok value)
    ∨ (Nowhere getModule kernelSymbols mod symbol ∧ ¬ Found getModule kernelSymbols mod symbol
        ∧ ∃ code, resolve getModule kernelSymbols mod symbol = .error (.code code))
    ∨ (¬ Found getModule kernelSymbols mod symbol ∧ ¬ Nowhere getModule kernelSymbols mod symbol
        ∧ resolve getModule kernelSymbols mod symbol = .error .nullPointer) := by
  unfold resolve Found Nowhere
  by_cases haddr : symbol.addr = 0
  · rw [if_neg (not_not.mpr haddr)]
    cases hkern : findKernelSymbol kernelSymbols symbol.name with
    | some kernSym =>
        have hnot : ¬ (symbol.addr = 0 ∧ some kernSym = none
            ∧ ∀ major ∈ mod.dependencies, Passed getModule symbol.name major) :=
          fun h => absurd h.2.1 (by simp)
        exact Or.inl ⟨Or.inr (Or.inl (by simp)), hnot, kernSym.addr, rfl⟩
    | none =>
        -- only the dependencies are left to find it in
        have hfound : (symbol.addr ≠ 0 ∨ (none : Option Symbol) ≠ none
            ∨ ∃ dep, Hit getModule symbol.name mod.dependencies dep)
              ↔ ∃ dep, Hit getModule symbol.name mod.dependencies dep := by
          simp [haddr]
        rw [hfound]
        rcases searchDependencies_cases getModule symbol.name mod.dependencies
          with ⟨d, hhit, hnot, heq⟩ | ⟨hnone, hall, heq⟩ | ⟨hnone, hnot, heq⟩
        · exact Or.inl ⟨⟨d, hhit⟩, fun h => hnot h.2.2, _, heq⟩
        · exact Or.inr (Or.inl ⟨⟨haddr, rfl, hall⟩, fun ⟨d, h⟩ => hnone d h, _, heq⟩)
        · exact Or.inr (Or.inr ⟨fun ⟨d, h⟩ => hnone d h, fun h => hnot h.2.2, heq⟩)
  · rw [if_pos haddr]
    exact Or.inl ⟨Or.inl haddr, fun h => haddr h.1, symbol.addr, rfl⟩

/-- The relocation goes through. -/
def Goes (getModule : Nat → Option LoadedModule) (kernelSymbols : List Symbol)
    (mod : LoadedModule) (rela : Rela) : Prop :=
  rela.type = globDat → ∃ symbol, mod.symbolAt rela.sym = some symbol
    ∧ Found getModule kernelSymbols mod symbol

/-- The relocation ends `link` with a code. -/
def Fails (getModule : Nat → Option LoadedModule) (kernelSymbols : List Symbol)
    (mod : LoadedModule) (rela : Rela) : Prop :=
  rela.type = globDat ∧ ∀ symbol, mod.symbolAt rela.sym = some symbol →
    Nowhere getModule kernelSymbols mod symbol

/-- A relocation goes through, or it fails, or it meets a null pointer. -/
theorem relocate_cases (getModule : Nat → Option LoadedModule) (kernelSymbols : List Symbol)
    (mod : LoadedModule) (mem : ByteMemory) (rela : Rela) :
    (Goes getModule kernelSymbols mod rela ∧ ¬ Fails getModule kernelSymbols mod rela
        ∧ ∃ mem', relocate getModule kernelSymbols mod mem rela = .ok mem')
    ∨ (Fails getModule kernelSymbols mod rela ∧ ¬ Goes getModule kernelSymbols mod rela
        ∧ ∃ code, relocate getModule kernelSymbols mod mem rela = .error (.code code))
    ∨ (¬ Goes getModule kernelSymbols mod rela ∧ ¬ Fails getModule kernelSymbols mod rela
        ∧ relocate getModule kernelSymbols mod mem rela = .error .nullPointer) := by
  unfold relocate Goes Fails
  by_cases htype : rela.type = globDat
  · cases hsym : mod.symbolAt rela.sym with
    | none => simp [htype]
    | some symbol =>
        simp only [htype, Option.some.injEq, forall_eq', exists_eq_left', true_and, if_true,
          forall_const]
        rcases resolve_cases getModule kernelSymbols mod symbol
          with ⟨hfound, hnot, v, heq⟩ | ⟨hnowhere, hnot, code, heq⟩ | ⟨hnot, hnot', heq⟩
        · exact Or.inl ⟨hfound, hnot, _, by rw [heq]⟩
        · exact Or.inr (Or.inl ⟨hnowhere, hnot, code, by rw [heq]⟩)
        · exact Or.inr (Or.inr ⟨hnot, hnot', by rw [heq]⟩)
  · refine Or.inl ⟨fun h => absurd h htype, fun h => htype h.1, ?_⟩
    rw [if_neg htype]
    by_cases hrel : rela.type = relative
    · exact ⟨_, if_pos hrel⟩
    · exact ⟨_, if_neg hrel⟩

/-! ## §4. All relocations. -/

theorem link_eq_foldlM (mod : LoadedModule) (mem : ByteMemory) :
    link getModule kernelSymbols mod mem
      = mod.relocations.foldlM (relocate getModule kernelSymbols mod) mem := by
  unfold link LoadedModule.relocations
  generalize mod.sectionMap = sections
  induction sections generalizing mem with
  | nil => rfl
  | cons sec sections ih =>
      rw [List.foldlM_cons]
      by_cases htype : sec.type = stRela
      · rw [List.filter_cons_of_pos (by simpa using htype), List.flatMap_cons, List.foldlM_append,
          if_pos htype]
        exact bind_congr fun mem => ih mem
      · rw [List.filter_cons_of_neg (by simpa using htype), if_neg htype]
        exact ih mem

/-- Everything in front of some relocation goes through, and that one fails. -/
def FailsFirst (getModule : Nat → Option LoadedModule) (kernelSymbols : List Symbol)
    (mod : LoadedModule) (relas : List Rela) : Prop :=
  ∃ earlier rela later, relas = earlier ++ rela :: later
    ∧ (∀ rela ∈ earlier, Goes getModule kernelSymbols mod rela)
    ∧ Fails getModule kernelSymbols mod rela

theorem failsFirst_cons {relas : List Rela} :
    FailsFirst getModule kernelSymbols mod (rela :: relas)
      ↔ Fails getModule kernelSymbols mod rela
        ∨ Goes getModule kernelSymbols mod rela ∧ FailsFirst getModule kernelSymbols mod relas := by
  constructor
  · intro ⟨earlier, at', later, heq, hall, hfails⟩
    cases earlier with
    | nil =>
        obtain ⟨rfl, -⟩ := List.cons.inj heq
        exact Or.inl hfails
    | cons first earlier =>
        obtain ⟨rfl, rfl⟩ := List.cons.inj heq
        obtain ⟨hfirst, hall⟩ := List.forall_mem_cons.mp hall
        exact Or.inr ⟨hfirst, earlier, at', later, rfl, hall, hfails⟩
  · intro h
    rcases h with hfails | ⟨hgoes, earlier, at', later, rfl, hall, hfails⟩
    · exact ⟨[], rela, relas, rfl, fun r hr => absurd hr List.not_mem_nil, hfails⟩
    · exact ⟨rela :: earlier, at', later, rfl, List.forall_mem_cons.mpr ⟨hgoes, hall⟩, hfails⟩

/-- **What `link` comes to**: all relocations go through, or one is the first that does not and
fails, or it meets a null pointer. -/
theorem relocations_cases (getModule : Nat → Option LoadedModule) (kernelSymbols : List Symbol)
    (mod : LoadedModule) (relas : List Rela) : ∀ mem : ByteMemory,
    ((∀ rela ∈ relas, Goes getModule kernelSymbols mod rela)
        ∧ ¬ FailsFirst getModule kernelSymbols mod relas
        ∧ ∃ mem', relas.foldlM (relocate getModule kernelSymbols mod) mem = .ok mem')
    ∨ (FailsFirst getModule kernelSymbols mod relas
        ∧ (¬ ∀ rela ∈ relas, Goes getModule kernelSymbols mod rela)
        ∧ ∃ code, relas.foldlM (relocate getModule kernelSymbols mod) mem = .error (.code code))
    ∨ ((¬ ∀ rela ∈ relas, Goes getModule kernelSymbols mod rela)
        ∧ ¬ FailsFirst getModule kernelSymbols mod relas
        ∧ relas.foldlM (relocate getModule kernelSymbols mod) mem = .error .nullPointer) := by
  induction relas with
  | nil =>
      intro mem
      refine Or.inl ⟨fun r hr => absurd hr List.not_mem_nil, fun ⟨earlier, r, later, heq, _⟩ => ?_,
        mem, rfl⟩
      exact absurd heq (by simp)
  | cons rela relas ih =>
      intro mem
      rw [List.foldlM_cons, failsFirst_cons]
      simp only [List.forall_mem_cons]
      rcases relocate_cases getModule kernelSymbols mod mem rela
        with ⟨hgoes, hnot, mem₁, heq⟩ | ⟨hfails, hnot, code, heq⟩ | ⟨hnot, hnot', heq⟩
      · have hbind : (relocate getModule kernelSymbols mod mem rela >>= fun mem =>
            relas.foldlM (relocate getModule kernelSymbols mod) mem)
              = relas.foldlM (relocate getModule kernelSymbols mod) mem₁ := by
          rw [heq]
          rfl
        rw [hbind]
        rcases ih mem₁ with ⟨hall, hfirst, hok⟩ | ⟨hfirst, hall, herr⟩ | ⟨hall, hfirst, herr⟩
        · exact Or.inl ⟨⟨hgoes, hall⟩, fun h => h.elim hnot fun h => hfirst h.2, hok⟩
        · exact Or.inr (Or.inl ⟨Or.inr ⟨hgoes, hfirst⟩, fun h => hall h.2, herr⟩)
        · exact Or.inr (Or.inr ⟨fun h => hall h.2, fun h => h.elim hnot fun h => hfirst h.2, herr⟩)
      · rw [heq]
        exact Or.inr (Or.inl ⟨Or.inl hfails, fun h => hnot h.1, code, rfl⟩)
      · rw [heq]
        exact Or.inr (Or.inr ⟨fun h => hnot h.1, fun h => h.elim hnot' fun h => hnot h.1, rfl⟩)

/-- What a relocation that goes through writes. -/
theorem relocate_ok (h : relocate getModule kernelSymbols mod mem rela = .ok mem') :
    (rela.type = globDat ∧ ∃ symbol value, mod.symbolAt rela.sym = some symbol
        ∧ resolve getModule kernelSymbols mod symbol = .ok value
        ∧ mem' = writeWord mem (mod.slot rela) value)
    ∨ (rela.type = relative
        ∧ mem' = writeWord mem (mod.slot rela) (mod.baseAddr + rela.addend))
    ∨ (rela.type ≠ globDat ∧ rela.type ≠ relative ∧ mem' = mem) := by
  unfold relocate at h
  split at h
  · rename_i htype
    cases hsym : mod.symbolAt rela.sym with
    | none =>
        rw [hsym] at h
        cases h
    | some symbol =>
        rw [hsym] at h
        simp only at h
        split at h
        · cases h
        · rename_i value hvalue
          injection h with h
          exact Or.inl ⟨htype, symbol, value, rfl, hvalue, h.symm⟩
  · split at h
    · rename_i hrel
      injection h with h
      exact Or.inr (Or.inl ⟨hrel, h.symm⟩)
    · rename_i hne hrel
      injection h with h
      exact Or.inr (Or.inr ⟨hne, hrel, h.symm⟩)

/-- **A slot that no later relocation writes to** stays as it is. -/
theorem holdsWord_of_last {addr value : Word} (later : List Rela) :
    ∀ {mem : ByteMemory}, HoldsWord mem addr value →
      (∀ rela' ∈ later, rela'.type = globDat ∨ rela'.type = relative →
        ¬ Overlap addr (mod.slot rela')) →
      later.foldlM (relocate getModule kernelSymbols mod) mem = .ok mem' →
        HoldsWord mem' addr value := by
  induction later with
  | nil =>
      intro mem h _ hfold
      injection hfold with hfold
      exact hfold ▸ h
  | cons rela later ih =>
      intro mem h hlast hfold
      rw [List.foldlM_cons] at hfold
      cases hrel : relocate getModule kernelSymbols mod mem rela with
      | error stop =>
          rw [hrel] at hfold
          cases hfold
      | ok mem₁ =>
          rw [hrel] at hfold
          refine ih ?_ (fun r hr => hlast r (List.mem_cons_of_mem _ hr)) hfold
          -- what this relocation writes is apart from the slot
          have hapart := hlast rela List.mem_cons_self
          rcases relocate_ok hrel with ⟨htype, _, v, _, _, rfl⟩ | ⟨htype, rfl⟩ | ⟨_, _, rfl⟩
          · exact h.writeWord (hapart (Or.inl htype))
          · exact h.writeWord (hapart (Or.inr htype))
          · exact h

/-- **What a slot holds after `link`**, when its relocation is the last one there. -/
theorem link_slot {earlier later : List Rela}
    (hlink : link getModule kernelSymbols mod mem = .ok mem')
    (hsplit : mod.relocations = earlier ++ rela :: later) (hlast : LastAtSlot mod rela later) :
    (rela.type = globDat → ∃ symbol value, mod.symbolAt rela.sym = some symbol
        ∧ resolve getModule kernelSymbols mod symbol = .ok value
        ∧ HoldsWord mem' (mod.slot rela) value)
    ∧ (rela.type = relative → HoldsWord mem' (mod.slot rela) (mod.baseAddr + rela.addend)) := by
  rw [link_eq_foldlM, hsplit, List.foldlM_append] at hlink
  cases hearlier : earlier.foldlM (relocate getModule kernelSymbols mod) mem with
  | error stop =>
      rw [hearlier] at hlink
      cases hlink
  | ok mem₁ =>
      rw [hearlier] at hlink
      have hlink : (rela :: later).foldlM (relocate getModule kernelSymbols mod) mem₁ = .ok mem' :=
        hlink
      rw [List.foldlM_cons] at hlink
      cases hrel : relocate getModule kernelSymbols mod mem₁ rela with
      | error stop =>
          rw [hrel] at hlink
          cases hlink
      | ok mem₂ =>
          rw [hrel] at hlink
          rcases relocate_ok hrel
            with ⟨htype, symbol, v, hsym, hv, rfl⟩ | ⟨htype, rfl⟩ | ⟨hne, hne', -⟩
          · refine ⟨fun _ => ⟨symbol, v, hsym, hv, ?_⟩,
              fun h => absurd (htype.symm.trans h) (by decide)⟩
            exact holdsWord_of_last later (holdsWord_writeWord _ _ _) hlast hlink
          · refine ⟨fun h => absurd (htype.symm.trans h) (by decide), fun _ => ?_⟩
            exact holdsWord_of_last later (holdsWord_writeWord _ _ _) hlast hlink
          · exact ⟨fun h => absurd h hne, fun h => absurd h hne'⟩

/-! ## §5. The main result. -/

/-- The symbol of the module has its base, and the search for a symbol of a dependency hits
the pointer of the first that defines it. -/
def Agrees (getModule : Nat → Option LoadedModule) (kernelSymbols : List Symbol)
    (mod : LoadedModule) (symbol : Symbol) : Prop :=
  (symbol.addr ≠ 0 → symbol.addr = mod.getSymbolPtr symbol.name)
    ∧ (symbol.addr = 0 → findKernelSymbol kernelSymbols symbol.name = none →
        ∀ dep dep', Hit getModule symbol.name mod.dependencies dep →
          definingDependency getModule symbol.name mod.dependencies = some dep' →
            dep.getSymbolPtr symbol.name = dep'.getSymbolPtr symbol.name)

theorem agrees_iff {value address : Word}
    (hvalue : resolve getModule kernelSymbols mod symbol = .ok value)
    (haddress : runTimeAddress getModule kernelSymbols mod symbol = some address) :
    Agrees getModule kernelSymbols mod symbol ↔ value = address := by
  unfold resolve at hvalue
  unfold runTimeAddress at haddress
  unfold Agrees
  by_cases hown : symbol.addr = 0
  · rw [if_neg (not_not.mpr hown)] at hvalue haddress
    cases hkern : findKernelSymbol kernelSymbols symbol.name with
    | some kernSym =>
        rw [hkern] at hvalue haddress
        injection hvalue with hvalue
        injection haddress with haddress
        refine iff_of_true ⟨fun h => absurd hown h, fun _ h => ?_⟩ (hvalue.symm.trans haddress)
        cases h
    | none =>
        rw [hkern] at hvalue haddress
        obtain ⟨dep', hdef, rfl⟩ := Option.map_eq_some_iff.mp haddress
        rcases searchDependencies_cases getModule symbol.name mod.dependencies
          with ⟨dep, hhit, -, heq⟩ | ⟨-, -, heq⟩ | ⟨-, -, heq⟩
        · obtain rfl := Except.ok.inj (heq.symm.trans hvalue)
          constructor
          · exact fun h => h.2 hown rfl dep dep' hhit hdef
          · intro h
            refine ⟨fun hne => absurd hown hne, fun _ _ d d' hd hd' => ?_⟩
            have hsame := Except.ok.inj (hd.ok.symm.trans heq)
            rw [hdef] at hd'
            rw [hsame, ← Option.some.inj hd']
            exact h
        · cases heq.symm.trans hvalue
        · cases heq.symm.trans hvalue
  · rw [if_pos hown] at hvalue haddress
    injection hvalue with hvalue
    injection haddress with haddress
    rw [← hvalue, ← haddress]
    exact ⟨fun h => h.1 hown, fun h => ⟨fun _ => h, fun hzero => absurd hzero hown⟩⟩

/-- When `link` meets its purpose: if some relocation is unresolvable, one fails before any
meets a null pointer; if none is, all go through, and the symbols of those that write last to
their slots agree. -/
def LinksProperly (getModule : Nat → Option LoadedModule) (kernelSymbols : List Symbol)
    (mod : LoadedModule) : Prop :=
  ((∃ rela ∈ mod.relocations, Unresolvable getModule kernelSymbols mod rela) →
      FailsFirst getModule kernelSymbols mod mod.relocations)
  ∧ ((∀ rela ∈ mod.relocations, ¬ Unresolvable getModule kernelSymbols mod rela) →
      (∀ rela ∈ mod.relocations, Goes getModule kernelSymbols mod rela)
      ∧ ∀ earlier rela later, mod.relocations = earlier ++ rela :: later →
          LastAtSlot mod rela later → rela.type = globDat →
            ∀ symbol, mod.symbolAt rela.sym = some symbol →
              Agrees getModule kernelSymbols mod symbol)

/-- A relocation that is not unresolvable has a run-time address. -/
theorem runTimeAddress_of_resolvable (h : ¬ Unresolvable getModule kernelSymbols mod rela)
    (htype : rela.type = globDat) (hsym : mod.symbolAt rela.sym = some symbol) :
    ∃ address, runTimeAddress getModule kernelSymbols mod symbol = some address := by
  refine Option.ne_none_iff_exists'.mp fun hnone => h ⟨htype, ?_⟩
  rw [hsym]
  exact hnone

/-- **RELOCATION AGREES WITH SYMBOL LOOKUP**, for every module, load base and set of tables,
exactly when it `LinksProperly`. -/
theorem link_agrees_iff (getModule : Nat → Option LoadedModule) (kernelSymbols : List Symbol)
    (mod : LoadedModule) (mem : ByteMemory) :
    LinkAgrees getModule kernelSymbols mod mem ↔ LinksProperly getModule kernelSymbols mod := by
  unfold LinkAgrees LinksProperly
  have hcases := relocations_cases getModule kernelSymbols mod mod.relocations mem
  rw [← link_eq_foldlM] at hcases
  rcases hcases
    with ⟨hall, hfirst, mem', hlink⟩ | ⟨hfirst, hall, code, hlink⟩ | ⟨hall, hfirst, hlink⟩
  · -- `link` returns 0: the slots decide
    simp only [hlink]
    constructor
    · intro ⟨hresolvable, hslots⟩
      refine ⟨fun ⟨r, hr, hun⟩ => absurd hun (hresolvable r hr), fun _ => ⟨hall, ?_⟩⟩
      intro earlier rela later hsplit hlast htype symbol hsym
      have hr : rela ∈ mod.relocations := by
        rw [hsplit]
        simp
      obtain ⟨address, haddress⟩ := runTimeAddress_of_resolvable (hresolvable rela hr) htype hsym
      obtain ⟨s, value, hs, hvalue, hholds⟩ := (link_slot hlink hsplit hlast).1 htype
      obtain rfl := Option.some.inj (hsym.symm.trans hs)
      refine (agrees_iff hvalue haddress).mpr (hholds.unique ?_)
      exact (hslots earlier rela later hsplit hlast).1 htype symbol address hsym haddress
    · intro ⟨hun, hagrees⟩
      have hresolvable : ∀ rela ∈ mod.relocations,
          ¬ Unresolvable getModule kernelSymbols mod rela :=
        fun r hr h => hfirst (hun ⟨r, hr, h⟩)
      refine ⟨hresolvable, fun earlier rela later hsplit hlast => ?_⟩
      obtain ⟨hglob, hrelative⟩ := link_slot hlink hsplit hlast
      refine ⟨fun htype symbol address hsym haddress => ?_, hrelative⟩
      obtain ⟨s, value, hs, hvalue, hholds⟩ := hglob htype
      obtain rfl := Option.some.inj (hsym.symm.trans hs)
      have hagree := (hagrees hresolvable).2 earlier rela later hsplit hlast htype symbol hsym
      rw [← (agrees_iff hvalue haddress).mp hagree]
      exact hholds
  · -- `link` fails: some symbol has to be unresolvable
    simp only [hlink]
    constructor
    · intro ⟨r, hr, hun⟩
      exact ⟨fun _ => hfirst, fun h => absurd hun (h r hr)⟩
    · intro ⟨_, hagrees⟩
      by_contra hnone
      exact hall (hagrees fun r hr hun => hnone ⟨r, hr, hun⟩).1
  · -- a null pointer is met, which is never proper
    simp only [hlink, false_iff]
    intro ⟨hun, hagrees⟩
    by_cases hsome : ∃ rela ∈ mod.relocations, Unresolvable getModule kernelSymbols mod rela
    · exact hfirst (hun hsome)
    · exact hall (hagrees fun r hr h => hsome ⟨r, hr, h⟩).1

/-- A module at `0x1000` that refers to its own symbol `f` at `0x10` through the slot at
`0x2000`. -/
def ownSymbol : LoadedModule where
  baseAddr := 0x1000
  sectionMap := [⟨4, [⟨0x2000, 0x100000006, 0⟩]⟩]
  symbols := [⟨[], 0⟩, ⟨['f'], 0x10⟩]
  dependencies := []

/-- **The base is missing**: `link` returns 0 and the slot holds `0x10`, not `0x1010`. -/
theorem own_symbol_without_base :
    ¬ ∀ (getModule : Nat → Option LoadedModule) (kernelSymbols : List Symbol)
      (mod : LoadedModule) (mem : ByteMemory), LinkAgrees getModule kernelSymbols mod mem := by
  intro h
  have hagrees := h (fun _ => none) [] ownSymbol (fun _ => 0)
  have hlink : link (fun _ => none) [] ownSymbol (fun _ => 0)
      = .ok (writeWord (fun _ => 0) 0x3000 0x10) := rfl
  unfold LinkAgrees at hagrees
  rw [hlink] at hagrees
  have hslot := (hagrees.2 [] ⟨0x2000, 0x100000006, 0⟩ [] rfl
    (fun r hr => absurd hr List.not_mem_nil)).1 rfl ⟨['f'], 0x10⟩ 0x1010 rfl rfl
  have heq := hslot.unique (holdsWord_writeWord _ _ _)
  exact absurd heq (by decide)

end MierOS.Modules.Linking
