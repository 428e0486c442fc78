/-
  MierOS.Modules.LoadErrors
  **WHAT A REJECTED MODULE LEAVES BEHIND**: `ModuleManager::load_module` on an image
  that it answers with an error.

  Nothing that `load` has mapped is ever unmapped, and no frame is given back.  What
  is taken back are the work pages of the pager, by `unlock`; and the tables of the
  manager are written last.  So a rejected image leaves no trace exactly when it was
  refused before a page was mapped.

  The module's own `init` counts with what it returns only, and the kernel heap, which
  holds the `Module`, has its pages elsewhere.

  Main result: `rejected_traceless_iff`.
-/
import MierOS.Memory.KernelSpace
import MierOS.Modules.Load

namespace MierOS.Modules.Loading

open Lib Memory.Virtual Memory.Virtual.Paging

/-! ## §1. A visit of the kernel pager. -/

/-- The kernel pager is not in use. -/
structure Calm (s : Paging) : Prop where
  good : Good s
  booted : 0 < s.pagerCount
  top : TopPresent s 0
  unlocked : (s.pagers 0).lockDepth = 0

/-- The same pages are present, and the same frames are in use for something else than
page structures. -/
structure SameMemory (s s' : Paging) : Prop where
  pages : ∀ v, (s'.translate 0 v).isSome = (s.translate 0 v).isSome
  frames : ∀ f, DataFrame s' f ↔ DataFrame s f

theorem SameMemory.refl (s : Paging) : SameMemory s s := ⟨fun _ => rfl, fun _ => Iff.rfl⟩

theorem SameMemory.trans {s s' s'' : Paging} (h : SameMemory s s') (h' : SameMemory s' s'') :
    SameMemory s s'' :=
  ⟨fun v => (h'.pages v).trans (h.pages v), fun f => (h'.frames f).trans (h.frames f)⟩

section Visit

variable {s t u : Paging}

/-- What the pagers can reach is calm while nobody holds the lock. -/
theorem calm_of_run {s₀ : Paging} {hist : List PagingEvent} (hboot : Booted s₀)
    (hrun : Run PagingStep s₀ hist s) (hfree : (s.pagers 0).lockDepth = 0) : Calm s := by
  obtain ⟨hcount, htop⟩ := reachable_topPresent hboot hrun
  exact ⟨reachable_good hboot hrun, hcount, htop 0 hcount, hfree⟩

/-- `lock` on the kernel pager. -/
structure Entered (s : Paging) : Prop where
  good : Good s
  locked : Locked s 0
  top : TopPresent s 0

theorem Calm.enter (h : Calm s) : Entered (s.lock 0) :=
  ⟨(lock_quiet h.good 0).good, ⟨h.booted, Nat.succ_pos _⟩, lock_topPresent h.good h.booted h.top⟩

theorem Calm.noWorkPage (h : Calm s) (k : Nat) : (s.pagers 0).workPages k = none := by
  obtain ⟨_, _, -, ht⟩ := h.good.tables
  cases hw : (s.pagers 0).workPages k with
  | none => rfl
  | some w =>
      have hlock := (ht.slots 0 k w hw).2.2
      rw [h.unlocked] at hlock
      exact absurd hlock (Nat.lt_irrefl 0)

theorem lock_translate (s : Paging) (q v : Nat) : (s.lock 0).translate q v = s.translate q v := by
  have hpml4 : ((s.lock 0).pagers q).pml4 = (s.pagers q).pml4 := by
    unfold lock setPager
    dsimp only
    split
    · rename_i hq; rw [hq]
    · rfl
  unfold Paging.translate
  rw [hpml4]
  rfl

/-- **Looking around and leaving** changes nothing: the work pages that came are
taken back. -/
theorem Calm.visit (h : Calm s) (hlook : Looked (s.lock 0) t 0) (hacc : Accounts (s.lock 0) t) :
    Calm (t.unlock 0) ∧ SameMemory s (t.unlock 0) := by
  have hin := h.enter
  have hg := hlook.steps.good
  have hp := hlook.steps.locked hin.locked
  have hquiet := unlock_quiet hg 0
  obtain ⟨owner, c, hinv, ht⟩ := hin.good.tables
  obtain ⟨owner', c', hinv', ht'⟩ := hg.tables
  have hnone : ∀ k, ((s.lock 0).pagers 0).workPages k = none := h.noWorkPage
  have hpages : ∀ v, ((t.unlock 0).translate 0 v).isSome = (s.translate 0 v).isSome := by
    intro v
    rw [Bool.eq_iff_iff, unlock_present hg 0 hp.1, hlook.shown 0 v hin.locked.1,
      lock_translate]
    constructor
    · intro ⟨hor, hnot⟩
      exact hor.resolve_right hnot
    · intro hpres
      refine ⟨Or.inl hpres, ?_⟩
      intro ⟨hv, k, hk⟩
      -- a slot marked before belongs to another pager
      have hwin := (inWindow_iff v).mpr hv
      have hlt : pte v < 511 := by
        rw [pte_eq]
        exact (hinv'.work 0 k _ hk).1
      rw [← lock_translate, hinv.translate_window hin.locked.1 hwin, leaf_isSome,
        hinv.slot_present_iff ht hlt] at hpres
      obtain ⟨q, k', hqk⟩ := hpres
      have hsame := hlook.steps.held q k' _ hqk
      rw [← pte_eq] at hk
      obtain ⟨rfl, -⟩ := hinv'.workInj _ _ _ _ _ hsame hk
      rw [hnone] at hqk
      exact absurd hqk (by simp)
  refine ⟨⟨hquiet.good, by rw [hquiet.count]; exact Nat.zero_lt_of_lt hp.1, ?_, ?_⟩, hpages, ?_⟩
  · exact (hpages _).trans h.top
  · rw [unlock_lockDepth hg, hlook.steps.lockDepth]
    show (s.lock 0 |>.pagers 0).lockDepth - 1 = 0
    have hdepth : ((s.lock 0).pagers 0).lockDepth = (s.pagers 0).lockDepth + 1 := rfl
    rw [hdepth, h.unlocked]
  · intro f
    rw [(unlock_accounts hg 0).dataFrame, hacc.dataFrame, (lock_accounts s 0).dataFrame]

end Visit

/-! ## §2. Mapping leaves frames. -/

section Mapping

variable {s s' : Paging}

/-- **One mapped page** takes one frame that is no page structure. -/
theorem mapPage_spec (hg : Good s) (hp : Locked s 0) {addr : Word}
    (hclear : pageOf addr.toNat < windowPage) (hs : mapPage s addr = some s') :
    Good s' ∧ Locked s' 0
      ∧ ∃ frame, s.used frame = false ∧ ∀ f, DataFrame s' f ↔ DataFrame s f ∨ f = frame := by
  unfold mapPage at hs
  simp only [Option.bind_eq_bind, Option.bind_eq_some_iff, Prod.exists] at hs
  obtain ⟨frame, s₁, hpal, hmap⟩ := hs
  obtain ⟨hfree, h40, -⟩ := palloc_cases hpal
  have hleft := palloc_leaves hg hpal
  have hphys : (frame <<< 12) >>> 12 + 1 ≤ 2 ^ 40 := by
    rw [Nat.shiftLeft_shiftRight]
    omega
  have hst := map_steps hleft.good (hleft.locked hp) (Nat.succ_le_of_lt hclear) hphys hmap
  have hacc := map_accounts hleft.good (hleft.locked hp) (Nat.succ_le_of_lt hclear) hphys hmap
  refine ⟨hst.good, hst.locked (hleft.locked hp), frame, hfree, fun f => ?_⟩
  rw [hacc.dataFrame, palloc_dataFrame hg hpal]

/-- **Mapping pages** keeps the frames in use, and takes one that was not. -/
theorem mapPages_spec (pages : List Word) :
    ∀ s, Good s → Locked s 0 → (∀ addr ∈ pages, pageOf addr.toNat < windowPage) →
      pages.foldlM mapPage s = some s' →
      Good s' ∧ Locked s' 0 ∧ (∀ f, DataFrame s f → DataFrame s' f)
        ∧ (pages ≠ [] → ∃ f, DataFrame s' f ∧ ¬ DataFrame s f) := by
  induction pages with
  | nil =>
      intro s hg hp _ hs
      injection hs with hs
      subst hs
      exact ⟨hg, hp, fun _ h => h, fun h => absurd rfl h⟩
  | cons addr pages ih =>
      intro s hg hp hclear hs
      rw [List.foldlM_cons] at hs
      obtain ⟨s₁, hs₁, hs⟩ := Option.bind_eq_some_iff.mp hs
      obtain ⟨hg₁, hp₁, frame, hfree, hframes⟩ :=
        mapPage_spec hg hp (hclear addr List.mem_cons_self) hs₁
      obtain ⟨hg', hp', hkept, -⟩ :=
        ih s₁ hg₁ hp₁ (fun a ha => hclear a (List.mem_cons_of_mem _ ha)) hs
      refine ⟨hg', hp', fun f hf => hkept f ((hframes f).mpr (Or.inl hf)), fun _ => ?_⟩
      refine ⟨frame, hkept frame ((hframes frame).mpr (Or.inr rfl)), ?_⟩
      rintro ⟨hused, -⟩
      rw [hused] at hfree
      exact absurd hfree (by decide)

/-- The loop over `flagRegions`. -/
theorem flagLoop_spec (regs : List FlagRegion) :
    ∀ s, Good s → Locked s 0 → (∀ reg ∈ regs, ∀ i, i < reg.length →
        (reg.start.toNat >>> 12 + i) % 2 ^ 36 < windowPage) →
      regs.foldlM (fun s reg => s.flags 0 reg.start.toNat reg.length reg.flags) s = some s' →
      Good s' ∧ Accounts s s' := by
  induction regs with
  | nil =>
      intro s hg _ _ hs
      injection hs with hs
      subst hs
      exact ⟨hg, Accounts.refl s⟩
  | cons reg regs ih =>
      intro s hg hp hclear hs
      rw [List.foldlM_cons] at hs
      obtain ⟨s₁, hs₁, hs⟩ := Option.bind_eq_some_iff.mp hs
      obtain ⟨⟨f, hst⟩, hacc⟩ := flags_steps hg hp (hclear reg List.mem_cons_self) hs₁
      obtain ⟨hg', hacc'⟩ := ih s₁ hst.good (hst.locked hp)
        (fun r hr => hclear r (List.mem_cons_of_mem _ hr)) hs
      exact ⟨hg', hacc.trans hacc'⟩

/-- The same over regions without a page. -/
theorem flagLoop_empty (regs : List FlagRegion) :
    ∀ s, Entered s → (∀ reg ∈ regs, reg.length = 0) →
      regs.foldlM (fun s reg => s.flags 0 reg.start.toNat reg.length reg.flags) s = some s' →
      Looked s s' 0 ∧ Accounts s s' := by
  induction regs with
  | nil =>
      intro s hin _ hs
      injection hs with hs
      subst hs
      exact ⟨Looked.refl hin.good 0, Accounts.refl s⟩
  | cons reg regs ih =>
      intro s hin hempty hs
      rw [List.foldlM_cons] at hs
      obtain ⟨s₁, hs₁, hs⟩ := Option.bind_eq_some_iff.mp hs
      rw [hempty reg List.mem_cons_self] at hs₁
      obtain ⟨hlook, hacc⟩ := flags_zero_looked hin.good hin.locked hs₁
      obtain ⟨hlook', hacc'⟩ := ih s₁ ⟨hlook.steps.good, hlook.steps.locked hin.locked,
        hlook.topPresent hin.locked hin.top⟩ (fun r hr => hempty r (List.mem_cons_of_mem _ hr)) hs
      exact ⟨hlook.trans hlook', hacc.trans hacc'⟩

end Mapping

/-! ## §3. The ways through `load`. -/

section Cases

variable (hashMajor : Nat → Nat) (hashName : Name → Nat) (kernelSymbol : Name → Bool)

/-- What `load` does when the reservation is at `base` and the search ended in `t`: it
maps, and if the module links it sets the flags. -/
inductive Mapped (mm : ModuleManager) (major : Nat) (file : ModuleFile) (base : Nat)
    (t : Paging) : Except LoadError Module → Paging → Prop
  | rejected {u : Paging} {e : LoadError} :
      (mappedPages (.ofNat 64 base) file.phdrs).foldlM mapPage t = some u →
      mm.load hashMajor hashName kernelSymbol major { file.image with room := true } = .error e →
      Mapped mm major file base t (.error e) (u.unlock 0)
  | linked {u w : Paging} {mod : Module} :
      (mappedPages (.ofNat 64 base) file.phdrs).foldlM mapPage t = some u →
      mm.load hashMajor hashName kernelSymbol major { file.image with room := true } = .ok mod →
      (flagRegions (.ofNat 64 base) file.phdrs).foldlM
        (fun s reg => s.flags 0 reg.start.toNat reg.length reg.flags) ((u.unlock 0).lock 0)
          = some w →
      Mapped mm major file base t (.ok mod) (w.unlock 0)

/-- How `load` ends, in the state `s'`. -/
inductive Loaded (mm : ModuleManager) (major : Nat) (s : Paging) (file : ModuleFile) :
    Except LoadError Module → Paging → Prop
  | badIdent : file.image.ident = false → Loaded mm major s file (.error (.errno .ENOEXEC)) s
  | noRoom {t : Paging} : file.image.ident = true →
      (s.lock 0).getFreeRange 0 kernelStart (modPageSize file.phdrs) = some (0, t) →
      Loaded mm major s file (.error (.errno .ENOMEM)) (t.unlock 0)
  | mapped {base : Nat} {t s' : Paging} {status : Except LoadError Module} :
      file.image.ident = true →
      (s.lock 0).getFreeRange 0 kernelStart (modPageSize file.phdrs) = some (base, t) →
      base ≠ 0 → Mapped hashMajor hashName kernelSymbol mm major file base t status s' →
      Loaded mm major s file status s'

variable {hashMajor hashName kernelSymbol}
variable {mm mm' : ModuleManager} {s s' : Paging} {file : ModuleFile} {major : Nat}

/-- **Every way through `load`.** -/
theorem load_loaded {status : Except LoadError Module}
    (hs : load hashMajor hashName kernelSymbol mm major s file = some (status, s')) :
    Loaded hashMajor hashName kernelSymbol mm major s file status s' := by
  unfold load at hs
  split at hs
  · rename_i hident
    rw [Option.some.injEq, Prod.mk.injEq] at hs
    obtain ⟨rfl, rfl⟩ := hs
    exact .badIdent (by simpa using hident)
  · rename_i hident
    rw [not_not] at hident
    simp only [Option.bind_eq_bind, Option.bind_eq_some_iff, Prod.exists] at hs
    obtain ⟨base, t, hfind, hs⟩ := hs
    split at hs
    · rename_i hbase
      subst hbase
      simp only [pure, Option.some.injEq, Prod.mk.injEq] at hs
      obtain ⟨rfl, rfl⟩ := hs
      exact .noRoom hident hfind
    · rename_i hbase
      obtain ⟨u, hmap, hs⟩ := Option.bind_eq_some_iff.mp hs
      rw [loadSegments_eq] at hmap
      refine .mapped hident hfind hbase ?_
      split at hs
      · rename_i e hload
        simp only [pure, Option.some.injEq, Prod.mk.injEq] at hs
        obtain ⟨rfl, rfl⟩ := hs
        exact .rejected hmap hload
      · rename_i mod hload
        obtain ⟨w, hflags, hs⟩ := Option.bind_eq_some_iff.mp hs
        simp only [pure, Option.some.injEq, Prod.mk.injEq] at hs
        obtain ⟨rfl, rfl⟩ := hs
        exact .linked hmap hload hflags

/-- The manager sees of the pager whether there was room. -/
theorem Loaded.manager {status : Except LoadError Module}
    (h : Loaded hashMajor hashName kernelSymbol mm major s file status s') :
    ∃ room, mm.load hashMajor hashName kernelSymbol major { file.image with room := room }
      = status := by
  cases h with
  | badIdent hident =>
      refine ⟨true, ?_⟩
      unfold ModuleManager.load
      rw [if_pos (by rw [hident]; decide)]
  | noRoom hident _ =>
      refine ⟨false, ?_⟩
      unfold ModuleManager.load
      rw [if_neg (by rw [hident]; decide)]
      rfl
  | mapped _ _ _ hmapped =>
      cases hmapped with
      | rejected _ hload => exact ⟨true, hload⟩
      | linked _ hload _ => exact ⟨true, hload⟩

/-- **`load_module` refines `ModuleManager.loadModule`**, and ends behind `load`. -/
theorem loadModule_loaded {result : Except LoadError Module}
    (hs : loadModule hashMajor hashName kernelSymbol mm s file = some (result, mm', s')) :
    (∃ room, mm.loadModule hashMajor hashName kernelSymbol { file.image with room := room }
        = (result, mm'))
      ∧ ∃ status, Loaded hashMajor hashName kernelSymbol
          { mm with nextMajor := (mm.nextMajor + 1) % 2 ^ 16 } mm.nextMajor s file status s' := by
  unfold loadModule at hs
  simp only [Option.bind_eq_bind, Option.bind_eq_some_iff, Prod.exists] at hs
  obtain ⟨status, t, hload, hs⟩ := hs
  have hloaded := load_loaded hload
  obtain ⟨room, hmanager⟩ := hloaded.manager
  cases status with
  | error e =>
      simp only [pure, Option.some.injEq, Prod.mk.injEq] at hs
      obtain ⟨rfl, rfl, rfl⟩ := hs
      refine ⟨⟨room, ?_⟩, _, hloaded⟩
      unfold ModuleManager.loadModule
      dsimp only
      rw [hmanager]
  | ok mod =>
      -- `init` does not look at `room`
      have hsame : ModuleManager.init hashMajor
          { mm with nextMajor := (mm.nextMajor + 1) % 2 ^ 16 } mod { file.image with room := room }
          = ModuleManager.init hashMajor
            { mm with nextMajor := (mm.nextMajor + 1) % 2 ^ 16 } mod file.image := rfl
      have hend : mm.loadModule hashMajor hashName kernelSymbol { file.image with room := room }
          = (result, mm') ∧ t = s' := by
        unfold ModuleManager.loadModule
        dsimp only at hs ⊢
        rw [hmanager]
        dsimp only
        rw [hsame]
        cases hinit : ModuleManager.init hashMajor
            { mm with nextMajor := (mm.nextMajor + 1) % 2 ^ 16 } mod file.image with
        | error e =>
            rw [hinit] at hs
            simp only [pure, Option.some.injEq, Prod.mk.injEq] at hs
            obtain ⟨rfl, rfl, rfl⟩ := hs
            exact ⟨rfl, rfl⟩
        | ok _ =>
            rw [hinit] at hs
            simp only [pure, Option.some.injEq, Prod.mk.injEq] at hs
            obtain ⟨rfl, rfl, rfl⟩ := hs
            exact ⟨rfl, rfl⟩
      obtain ⟨heq, rfl⟩ := hend
      exact ⟨⟨room, heq⟩, _, hloaded⟩

end Cases

/-! ## §4. No trace. -/

/-- **A rejected module leaves no trace**: the present kernel pages, the frames in use
for anything but page structures, and the answers of the manager are those from before. -/
structure NoTrace (hashMajor : Nat → Nat) (hashName : Name → Nat) (mm mm' : ModuleManager)
    (s s' : Paging) : Prop where
  pages : ∀ v, kernelPage ≤ v % 2 ^ 36 → (s'.translate 0 v).isSome = (s.translate 0 v).isSome
  frames : ∀ f, DataFrame s' f ↔ DataFrame s f
  found : ∀ name, mm'.findModule hashName name = mm.findModule hashName name
  got : ∀ major, mm'.getModule hashMajor major = mm.getModule hashMajor major

/-- The search of `load` finds no range. -/
def NoRoom (s : Paging) (phdrs : List Phdr) : Prop :=
  ∃ t, (s.lock 0).getFreeRange 0 kernelStart (modPageSize phdrs) = some (0, t)

/-- **Refused early**: for its ident bytes, for want of room, or with nothing to map. -/
def RefusedEarly (s : Paging) (file : ModuleFile) : Prop :=
  file.image.ident = false ∨ NoRoom s file.phdrs
    ∨ ∀ ph ∈ loadable file.phdrs, ph.pageMemSize = 0

/-- No page of the image comes to lie in the work-page window. -/
def OffWindow (s : Paging) (phdrs : List Phdr) : Prop :=
  ∀ base t, (s.lock 0).getFreeRange 0 kernelStart (modPageSize phdrs) = some (base, t) →
    ∀ addr ∈ mappedPages (.ofNat 64 base) phdrs, pageOf addr.toNat < windowPage

section Trace

variable {hashMajor : Nat → Nat} {hashName : Name → Nat} {kernelSymbol : Name → Bool}
  {mm mm' : ModuleManager} {s s' t : Paging} {file : ModuleFile} {major base : Nat}
  {status : Except LoadError Module}

/-- **An error registers nothing.** -/
theorem error_answers {e : LoadError} {image : Image}
    (h : mm.loadModule hashMajor hashName kernelSymbol image = (.error e, mm')) :
    (∀ name, mm'.findModule hashName name = mm.findModule hashName name)
      ∧ ∀ major, mm'.getModule hashMajor major = mm.getModule hashMajor major := by
  rcases loadModule_cases mm image with ⟨e', he⟩ | ⟨mod, -, hok⟩
  · rw [he] at h
    obtain ⟨-, rfl⟩ := Prod.mk.inj h
    exact ⟨fun _ => rfl, fun _ => rfl⟩
  · rw [hok] at h
    exact absurd (Prod.mk.inj h).1 (by simp)

theorem mappedPages_eq_nil {phdrs : List Phdr} {base : Word}
    (hempty : ∀ ph ∈ loadable phdrs, ph.pageMemSize = 0) : mappedPages base phdrs = [] := by
  unfold mappedPages
  rw [List.flatMap_eq_nil_iff]
  intro ph hph
  unfold Phdr.pages
  rw [hempty ph hph]
  rfl

theorem mappedPages_ne_nil {phdrs : List Phdr} {base : Word} {ph : Phdr}
    (hph : ph ∈ loadable phdrs) (hpos : ph.pageMemSize ≠ 0) : mappedPages base phdrs ≠ [] := by
  unfold mappedPages
  rw [Ne, List.flatMap_eq_nil_iff]
  intro hall
  have hnil := hall ph hph
  unfold Phdr.pages at hnil
  rw [List.map_eq_nil_iff, List.range_eq_nil] at hnil
  exact hpos hnil

theorem flagRegions_empty {phdrs : List Phdr} {base : Word}
    (hempty : ∀ ph ∈ loadable phdrs, ph.pageMemSize = 0) :
    ∀ reg ∈ flagRegions base phdrs, reg.length = 0 := by
  intro reg hreg
  obtain ⟨ph, hph, rfl⟩ := List.mem_map.mp hreg
  exact hempty ph hph

/-- The search itself leaves nothing. -/
theorem Calm.search (h : Calm s) {n : Nat} (h52 : n < 2 ^ 52)
    (hfind : (s.lock 0).getFreeRange 0 kernelStart n = some (base, t)) :
    Looked (s.lock 0) t 0 ∧ Accounts (s.lock 0) t :=
  ⟨(getFreeRange_looked h.enter.good h.enter.locked h.enter.top (by decide) (by decide) (by decide)
      h52 hfind).1,
    getFreeRange_accounts h.enter.good h.enter.locked (by decide) hfind⟩

/-- **An image refused early** leaves the memory as it was. -/
theorem Loaded.sameMemory (h : Calm s) (hearly : RefusedEarly s file)
    (hl : Loaded hashMajor hashName kernelSymbol mm major s file status s') : SameMemory s s' := by
  have h52 := modPageSize_lt file.phdrs
  cases hl with
  | badIdent _ => exact SameMemory.refl s
  | noRoom _ hfind =>
      obtain ⟨hlook, hacc⟩ := h.search h52 hfind
      exact (h.visit hlook hacc).2
  | mapped hident hfind hbase hmapped =>
      obtain ⟨hlook, hacc⟩ := h.search h52 hfind
      obtain ⟨hcalm, hsame⟩ := h.visit hlook hacc
      have hempty : ∀ ph ∈ loadable file.phdrs, ph.pageMemSize = 0 := by
        rcases hearly with hbad | ⟨t', hnone⟩ | hempty
        · rw [hident] at hbad
          exact absurd hbad (by decide)
        · rw [hfind, Option.some.injEq, Prod.mk.injEq] at hnone
          exact absurd hnone.1 hbase
        · exact hempty
      -- so the loops over the pages do nothing
      cases hmapped with
      | rejected hmap _ =>
          rw [mappedPages_eq_nil hempty] at hmap
          injection hmap with hmap
          subst hmap
          exact hsame
      | linked hmap _ hflags =>
          rw [mappedPages_eq_nil hempty] at hmap
          injection hmap with hmap
          subst hmap
          obtain ⟨hlook', hacc'⟩ :=
            flagLoop_empty _ _ hcalm.enter (flagRegions_empty hempty) hflags
          exact hsame.trans (hcalm.visit hlook' hacc').2

/-- The flags are set on pages that were mapped. -/
theorem flagRegions_clear {b : Nat} {phdrs : List Phdr}
    (hclear : ∀ addr ∈ mappedPages (.ofNat 64 (b * 0x1000)) phdrs,
      pageOf addr.toNat < windowPage) :
    ∀ reg ∈ flagRegions (.ofNat 64 (b * 0x1000)) phdrs, ∀ i, i < reg.length →
      (reg.start.toNat >>> 12 + i) % 2 ^ 36 < windowPage := by
  intro reg hreg i hi
  obtain ⟨ph, hph, rfl⟩ := List.mem_map.mp hreg
  have hmem : ph.pageAddr (.ofNat 64 (b * 0x1000)) i
      ∈ mappedPages (.ofNat 64 (b * 0x1000)) phdrs :=
    List.mem_flatMap.mpr ⟨ph, hph, mem_pages_iff.mpr ⟨i, hi, rfl⟩⟩
  have hpage := hclear _ hmem
  have hstart : (ph.flagRegion (.ofNat 64 (b * 0x1000))).start.toNat
      = (b + ph.firstPage) % 2 ^ 52 * 0x1000 := by
    unfold Phdr.flagRegion Phdr.firstPage
    rw [BitVec.toNat_add, toNat_high, BitVec.toNat_ofNat]
    omega
  rw [pageOf_eq, ph.pageAddr_toNat] at hpage
  rw [hstart, Nat.shiftRight_eq_div_pow]
  unfold windowPage at hpage ⊢
  omega

/-- **An image that was mapped** keeps a frame that was not in use. -/
theorem Mapped.keepsFrame {b : Nat} (h : Calm s) (hfind : (s.lock 0).getFreeRange 0 kernelStart
      (modPageSize file.phdrs) = some (b * 0x1000, t))
    (hclear : ∀ addr ∈ mappedPages (.ofNat 64 (b * 0x1000)) file.phdrs,
      pageOf addr.toNat < windowPage) {ph : Phdr} (hph : ph ∈ loadable file.phdrs)
    (hpos : ph.pageMemSize ≠ 0)
    (hm : Mapped hashMajor hashName kernelSymbol mm major file (b * 0x1000) t status s') :
    ∃ f, DataFrame s' f ∧ ¬ DataFrame s f := by
  obtain ⟨hlook, hacc⟩ := h.search (modPageSize_lt file.phdrs) hfind
  have hin := h.enter
  have hmapping : ∀ {u : Paging},
      (mappedPages (.ofNat 64 (b * 0x1000)) file.phdrs).foldlM mapPage t = some u →
      Good u ∧ Locked u 0 ∧ ∃ f, DataFrame (u.unlock 0) f ∧ ¬ DataFrame s f := by
    intro u hmap
    obtain ⟨hg, hp, -, hnew⟩ := mapPages_spec _ t hlook.steps.good
      (hlook.steps.locked hin.locked) hclear hmap
    obtain ⟨f, hf, hnot⟩ := hnew (mappedPages_ne_nil hph hpos)
    refine ⟨hg, hp, f, (unlock_accounts hg 0).dataFrame f |>.mpr hf, ?_⟩
    rw [hacc.dataFrame, (lock_accounts s 0).dataFrame] at hnot
    exact hnot
  cases hm with
  | rejected hmap _ => exact (hmapping hmap).2.2
  | @linked u w mod hmap _ hflags =>
      obtain ⟨hg, hp, f, hf, hnot⟩ := hmapping hmap
      -- what happens to the flags takes no frame away
      have hquiet := unlock_quiet hg 0
      have hlocked : Locked ((u.unlock 0).lock 0) 0 :=
        ⟨Nat.lt_of_lt_of_eq hp.1 hquiet.count.symm, Nat.succ_pos _⟩
      obtain ⟨hg', hacc'⟩ := flagLoop_spec _ _ (lock_quiet hquiet.good 0).good hlocked
        (flagRegions_clear hclear) hflags
      refine ⟨f, ?_, hnot⟩
      rw [(unlock_accounts hg' 0).dataFrame, hacc'.dataFrame, (lock_accounts _ 0).dataFrame]
      exact hf

/-- **A rejected module leaves no trace** (`ModuleManager::load_module`): whenever it
answers an error, the present kernel pages, the frames in use for anything but page
structures, and what `find_module` and `get_module` answer are as before if the image
was refused early.  Of images whose pages stay off the work-page window it is ONLY
those: a header that is missing, symbols that are not there or not to be resolved, and
an `init` that fails all come after the pages were mapped. -/
theorem rejected_traceless_iff {s₀ : Paging} {hist : List PagingEvent} {e : LoadError}
    (hboot : Booted s₀) (hrun : Run PagingStep s₀ hist s) (hfree : (s.pagers 0).lockDepth = 0)
    (hload : loadModule hashMajor hashName kernelSymbol mm s file = some (.error e, mm', s')) :
    (RefusedEarly s file → NoTrace hashMajor hashName mm mm' s s')
      ∧ (OffWindow s file.phdrs →
          (NoTrace hashMajor hashName mm mm' s s' ↔ RefusedEarly s file)) := by
  have hcalm := calm_of_run hboot hrun hfree
  obtain ⟨⟨room, hmanager⟩, status, hloaded⟩ := loadModule_loaded hload
  obtain ⟨hfound, hgot⟩ := error_answers hmanager
  have hearly : RefusedEarly s file → NoTrace hashMajor hashName mm mm' s s' := by
    intro hearly
    have hsame := hloaded.sameMemory hcalm hearly
    exact ⟨fun v _ => hsame.pages v, hsame.frames, hfound, hgot⟩
  refine ⟨hearly, fun hclear => ⟨fun hnone => ?_, hearly⟩⟩
  by_contra hlate
  unfold RefusedEarly at hlate
  push Not at hlate
  obtain ⟨hident, hroom, ph, hph, hpos⟩ := hlate
  cases hloaded with
  | badIdent hbad => exact hident hbad
  | noRoom _ hfind => exact hroom ⟨_, hfind⟩
  | mapped _ hfind hbase hmapped =>
      obtain ⟨b, rfl, -, -⟩ := reserve_spec hboot hrun (modPageSize_lt _) hfind hbase
      obtain ⟨f, hf, hnot⟩ := hmapped.keepsFrame hcalm hfind (hclear _ _ hfind) hph hpos
      exact hnot ((hnone.frames f).mp hf)

end Trace

/-- A one-page segment under an image whose ident bytes are wrong, or whose section
headers are missing. -/
def brokenFile (ident : Bool) : ModuleFile :=
  ⟨{ plainImage "a" [] with ident := ident, header := false }, [plainPhdr 0 0x1000]⟩

/-- The first leaves no trace, the second the page of its segment. -/
theorem rejected_traceless_iff_segment :
    ∃ s₀, Booted s₀ ∧ ∀ ident, ∃ mm' s',
      loadModule id List.length (fun _ => false) .new s₀ (brokenFile ident)
          = some (.error (.errno .ENOEXEC), mm', s')
        ∧ (NoTrace id List.length .new mm' s₀ s' ↔ ident = false) := by
  have hrun : (demoInit.bind fun s => ((s.lock 0).getFreeRange 0 kernelStart 1).bind fun r =>
      (loadModule id List.length (fun _ => false) .new s (brokenFile true)).bind fun r₁ =>
        (loadModule id List.length (fun _ => false) .new s (brokenFile false)).map fun r₂ =>
          ((s.pagers 0).lockDepth, r.1, r₁.1, r₂.1))
      = some (0, kernelStart, .error (.errno .ENOEXEC), .error (.errno .ENOEXEC)) := by
    decide +kernel
  obtain ⟨s₀, hs₀, hrun⟩ := Option.bind_eq_some_iff.mp hrun
  obtain ⟨⟨base, t⟩, hfind, hrun⟩ := Option.bind_eq_some_iff.mp hrun
  obtain ⟨⟨result₁, mm₁, s₁⟩, hload₁, hrun⟩ := Option.bind_eq_some_iff.mp hrun
  obtain ⟨⟨result₂, mm₂, s₂⟩, hload₂, hrun⟩ := Option.map_eq_some_iff.mp hrun
  simp only [Prod.mk.injEq] at hrun
  obtain ⟨hfree, rfl, rfl, rfl⟩ := hrun
  have hboot : Booted s₀ := ⟨_, _, _, _, _, _, hs₀⟩
  have hphdrs : ∀ ident, (brokenFile ident).phdrs = [plainPhdr 0 0x1000] := fun _ => rfl
  have hpages : modPageSize [plainPhdr 0 0x1000] = 1 := by decide
  have hmapped : mappedPages (.ofNat 64 kernelStart) [plainPhdr 0 0x1000]
      = [0xFFFFFFFF80000000] := by
    decide
  have hclear : OffWindow s₀ [plainPhdr 0 0x1000] := by
    intro base' t' hfind'
    rw [hpages, hfind, Option.some.injEq, Prod.mk.injEq] at hfind'
    rw [← hfind'.1, hmapped]
    intro addr haddr
    rw [List.mem_singleton.mp haddr]
    decide
  refine ⟨s₀, hboot, fun ident => ?_⟩
  cases ident with
  | false =>
      exact ⟨mm₂, s₂, hload₂, iff_of_true
        ((rejected_traceless_iff hboot .init hfree hload₂).1 (Or.inl rfl)) rfl⟩
  | true =>
      refine ⟨mm₁, s₁, hload₁, iff_of_false (fun hnone => ?_) (by decide)⟩
      rcases ((rejected_traceless_iff hboot .init hfree hload₁).2 hclear).mp hnone
        with hident | ⟨t', hroom⟩ | hempty
      · exact absurd hident (by decide)
      · rw [hphdrs, hpages, hfind, Option.some.injEq, Prod.mk.injEq] at hroom
        exact absurd hroom.1 (by decide)
      · exact absurd (hempty (plainPhdr 0 0x1000) (by decide)) (by decide)

/-- The images that fail behind the mapping: no header, no symbols, a symbol that is
nowhere, an `init` that fails. -/
def lateFailures : List Image :=
  [{ plainImage "a" [] with header := false }, { plainImage "a" [] with symbolSections := false },
    { plainImage "a" [] with undefined := ["x".toList] }, { plainImage "a" [] with initResult := 5 }]

/-- **Every late failure leaves the page that was mapped**: the first page above
`KERNEL_START` is present behind the error. -/
theorem late_failure_leaves_page :
    (¬ ∀ s₀ hist s (mm : ModuleManager) file e mm' s', Booted s₀ → Run PagingStep s₀ hist s →
        (s.pagers 0).lockDepth = 0 →
        loadModule id List.length (fun _ => false) mm s file = some (.error e, mm', s') →
        NoTrace id List.length mm mm' s s')
      ∧ lateFailures.map (fun image => demoInit.bind fun s =>
          (loadModule id List.length (fun _ => false) .new s ⟨image, [plainPhdr 0 0x1000]⟩).map
            fun r => (r.1, (s.translate 0 kernelPage).isSome,
              (r.2.2.translate 0 kernelPage).isSome))
        = [some (.error (.errno .ENOEXEC), false, true),
          some (.error (.errno .ENOEXEC), false, true),
          some (.error (.errno .ENOEXEC), false, true), some (.error (.init 5), false, true)] := by
  refine ⟨?_, by decide +kernel⟩
  intro hclaim
  have hseen : (demoInit.bind fun s =>
      (loadModule id List.length (fun _ => false) .new s
        ⟨{ plainImage "a" [] with header := false }, [plainPhdr 0 0x1000]⟩).map fun r =>
          ((s.pagers 0).lockDepth, r.1, (s.translate 0 kernelPage).isSome,
            (r.2.2.translate 0 kernelPage).isSome))
      = some (0, .error (.errno .ENOEXEC), false, true) := by
    decide +kernel
  obtain ⟨s₀, hs₀, hseen⟩ := Option.bind_eq_some_iff.mp hseen
  obtain ⟨⟨result, mm', s'⟩, hload, hseen⟩ := Option.map_eq_some_iff.mp hseen
  simp only [Prod.mk.injEq] at hseen
  obtain ⟨hfree, rfl, hbefore, hafter⟩ := hseen
  have hnone := hclaim s₀ [] s₀ _ _ _ mm' s' ⟨_, _, _, _, _, _, hs₀⟩ .init hfree hload
  rw [hnone.pages kernelPage (by decide), hbefore] at hafter
  exact absurd hafter (by decide)

end MierOS.Modules.Loading
