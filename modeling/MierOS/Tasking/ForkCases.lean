/-
  MierOS.Tasking.ForkCases
  **WHAT `fork` DOES**: the child gets the entries of its parent, and of a
  private file mapping both get a write-protected one (`protect`).  No contents
  change.  `Forking` is the loop invariant over the parent's memory map.
-/
import MierOS.Tasking.FaultCases

namespace MierOS.Tasking

open Memory.Virtual
open Lib.Refs

/-- What an entry becomes, in parent and child, when its process forks. -/
def MemoryEntry.protect : MemoryEntry → MemoryEntry
  | .fileMemory f shared => .fileMemory (Kernel.protectFile f shared) shared
  | e => e

namespace Space

variable {v v' v'' : Space} {p a child : Nat}

/-! ## §1. One entry. -/

/-- Parent and child have entry `a`; pages keep everything but flags and
marks. -/
structure ForkedEntry (v : Space) (p child a : Nat) (v' : Space) : Prop where
  maps : ∀ q b, v'.maps q b = if (q = child ∨ q = p) ∧ b = a then
    (v.maps p a).map MemoryEntry.protect else v.maps q b
  pages : ∀ x, (v'.pages x).kind = (v.pages x).kind ∧ (v'.pages x).addr = (v.pages x).addr
    ∧ (v'.pages x).bytes = (v.pages x).bytes
  anons : v'.anons = v.anons
  sharedPages : v'.sharedPages = v.sharedPages
  next : v'.next = v.next
  status : v'.status = v.status

/-- Write-protecting a private page of the parent. -/
theorem replaced_protectMemory {d : PagePtr} {shared : Bool}
    (he : v.maps p a = some (.memory d shared)) :
    Replaced v p a (.memory d shared) d
      { v.pages d with flags := { (v.pages d).flags with writable := false }, copyOnWrite := true }
      (v.protectMemory p a d) := by
  have hpages : ∀ x, (v.protectMemory p a d).pages x = if x = d then
      { v.pages x with flags := { (v.pages x).flags with writable := false }, copyOnWrite := true }
      else v.pages x := by
    intro x
    unfold Space.protectMemory
    dsimp only
    show ((v.setFlags d _).setCopyOnWrite d true).pages x = _
    unfold Space.setCopyOnWrite
    by_cases hxd : x = d
    · subst hxd
      rw [modifyPage_pages, if_pos rfl, if_pos rfl, setFlags_pages, if_pos rfl]
    · rw [modifyPage_pages, if_neg hxd, if_neg hxd, setFlags_pages, if_neg hxd]
  constructor
  case maps => exact (maps_set_self he).symm
  case table =>
    intro q b
    exact Space.table_setTable _ p a _ q b
  case page => rw [hpages, if_pos rfl]
  case old =>
    intro x hx
    rw [hpages, if_neg hx]
  case next => exact Nat.le_refl _

theorem Good.protectMemory (h : Good v) {d : PagePtr} (he : v.maps p a = some (.memory d false))
    (hw : (v.pages d).flags.writable = true) : Good (v.protectMemory p a d) := by
  have hr := replaced_protectMemory he
  have hd := h.entries p a _ he
  apply h.replaced hr (hr.extendsOld ⟨rfl, rfl⟩ rfl) _ rfl
  · show d < v.next ∧ ((v.protectMemory p a d).pages d).kind = .priv
    rw [hr.page]
    exact hd
  · intro q b shared hqb hx
    exact absurd (h.unique p a d he hw q b _ hx rfl) hqb
  · intro _ hfalse
    cases hfalse
  · apply h.pagesOk.replacedOld hr rfl rfl (fun _ _ _ hx => hx) rfl
    intro _
    exact hd.2

/-- Mapping a page of the parent in the child. -/
theorem Good.mapChild (h : Good v) {d : PagePtr} {shared : Bool}
    (he : v.maps p a = some (.memory d shared)) (hnone : v.maps child a = none)
    (hro : shared = false → (v.pages d).flags.writable = false) :
    Good (v.mapPage child a d shared) := by
  have hkeep := setPageMapping_frame (v.map child a d (v.pages d).flags) child a (.memory d shared)
  have hr := replaced_mapPage (v := v) (p := child) (a := a) (by
    intro x hx
    rw [hnone] at hx
    cases hx) d shared
  have hext := hr.extendsOld ⟨rfl, rfl⟩ hkeep.2.1
  apply h.replaced hr hext _ rfl ((h.entries p a _ he).mono hext)
  · intro q b sh _ _
    rfl
  · intro hprivate hw
    rw [hro (MemoryEntry.memory.inj hprivate).2] at hw
    cases hw
  · apply h.pagesOk.replacedOld hr hkeep.1 hkeep.2.1 _ rfl (h.pagesOk.cow d)
    intro file offset x hx
    have hcache : (v.mapPage child a d shared).sharedPages = v.sharedPages := hkeep.2.2.1
    rw [hcache] at hx
    exact hx

/-- A file mapping is written, in the parent or in the child. -/
theorem Good.setFileEntry (h : Good v) {q : Nat} {f g : MemoryFilePage} {shared : Bool}
    (he : v.maps p a = some (.fileMemory f shared)) (hpage : g.page = f.page) (hfile : g.file = f.file) :
    Good ((v.setEntry q a (some (.fileMemory g shared))).map q a f.page g.flags) := by
  have hr : Replaced v q a (.fileMemory g shared) g.page (v.pages g.page)
      ((v.setEntry q a (some (.fileMemory g shared))).map q a f.page g.flags) := by
    rw [← hpage]
    exact replaced_setEntry v q a g.page g.flags (.fileMemory g shared) rfl
  apply h.replaced hr (hr.extendsOld ⟨rfl, rfl⟩ rfl)
    (h.pagesOk.congr rfl rfl rfl rfl) rfl
  · show g.page < v.next ∧ ∃ offset, (v.pages g.page).kind = .file g.file offset
    rw [hpage, hfile]
    exact h.entries p a _ he
  · intro q b sh _ _
    rfl
  · intro hfalse
    cases hfalse

theorem protectFile_page (f : MemoryFilePage) (shared : Bool) :
    (Kernel.protectFile f shared).page = f.page
      ∧ (Kernel.protectFile f shared).file = f.file := by
  unfold Kernel.protectFile
  split <;> exact ⟨rfl, rfl⟩

/-- Both slots, when the parent's is as before. -/
theorem forkedEntry_maps (hpc : p ≠ child) {e : MemoryEntry} (he : v.maps p a = some e)
    (hmaps : v'.maps = (v.maps.set p a (some e.protect)).set child a (some e.protect)) (q b : Nat) :
    v'.maps q b = if (q = child ∨ q = p) ∧ b = a then
      (v.maps p a).map MemoryEntry.protect else v.maps q b := by
  rw [hmaps, he, Maps.set_apply, Maps.set_apply]
  by_cases hb : b = a
  · subst hb
    by_cases hc : q = child
    · simp [hc]
    · by_cases hq : q = p
      · simp [hq, hpc]
      · simp [hc, hq]
  · simp [hb]

theorem set_protect {e : MemoryEntry} (he : v.maps p a = some e) (heq : e.protect = e) :
    v.maps.set p a (some e.protect) = v.maps := by
  rw [heq]
  exact maps_set_self he

theorem forkedEntry_none (hnone : v.maps child a = none) (he : v.maps p a = none) :
    ForkedEntry v p child a v := by
  refine ⟨fun q b => ?_, fun _ => ⟨rfl, rfl, rfl⟩, rfl, rfl, rfl, rfl⟩
  rw [he]
  by_cases hqb : (q = child ∨ q = p) ∧ b = a
  · rw [if_pos hqb, hqb.2]
    rcases hqb.1 with rfl | rfl
    · exact hnone
    · exact he
  · rw [if_neg hqb]

/-- An entry without a page goes to the child as it is. -/
theorem fork_plain (h : Good v) (hpc : p ≠ child) (hnone : v.maps child a = none)
    {e : MemoryEntry} (he : v.maps p a = some e) (heq : e.protect = e) (hheld : e.held = none) :
    Good (v.setEntry child a (some e)) ∧ ForkedEntry v p child a (v.setEntry child a (some e)) := by
  refine ⟨h.insertEntry hnone hheld (h.entries p a e he), ?_⟩
  refine ⟨forkedEntry_maps hpc he ?_, fun _ => ⟨rfl, rfl, rfl⟩, rfl, rfl, rfl, rfl⟩
  rw [set_protect he heq, heq]
  rfl

/-- A `MEMORY` entry is mapped into the child; before that a private page that is
writable is protected in the parent. -/
theorem fork_memory (h : Good v) (hpc : p ≠ child) (hnone : v.maps child a = none)
    {d : PagePtr} {shared : Bool} (he : v.maps p a = some (.memory d shared)) :
    Good (v.forkEntry p child a) ∧ ForkedEntry v p child a (v.forkEntry p child a) := by
  unfold Space.forkEntry
  rw [he]
  dsimp only
  by_cases hw : (v.pages d).flags.writable = true ∧ shared = false
  · rw [if_pos hw]
    have hshared := hw.2
    subst hshared
    have hr := replaced_protectMemory he
    have h₁ := h.protectMemory he hw.1
    have hpages : ∀ x, ((v.protectMemory p a d).pages x).kind = (v.pages x).kind
        ∧ ((v.protectMemory p a d).pages x).addr = (v.pages x).addr
        ∧ ((v.protectMemory p a d).pages x).bytes = (v.pages x).bytes := by
      intro x
      by_cases hxd : x = d
      · rw [hxd, hr.page]
        exact ⟨rfl, rfl, rfl⟩
      · rw [hr.old x hxd]
        exact ⟨rfl, rfl, rfl⟩
    have hkeep := setPageMapping_frame ((v.protectMemory p a d).map child a d
      ((v.protectMemory p a d).pages d).flags) child a (.memory d false)
    have hpl := replaced_mapPage (v := v.protectMemory p a d) (p := child) (a := a) (by
      intro x hx
      have hx' : v.maps child a = some x := hx
      rw [hnone] at hx'
      cases hx') d false
    refine ⟨h₁.mapChild he hnone (fun _ => by rw [hr.page]), ⟨?_, ?_, hkeep.2.1, hkeep.2.2.1,
      hkeep.1, hkeep.2.2.2⟩⟩
    · apply forkedEntry_maps hpc he
      rw [hpl.maps, set_protect he rfl]
      rfl
    · intro x
      rw [show ((v.protectMemory p a d).mapPage child a d false).pages
        = (v.protectMemory p a d).pages from Space.pages_setPageMapping _ _ _ _]
      exact hpages x
  · rw [if_neg hw]
    have hkeep := setPageMapping_frame (v.map child a d (v.pages d).flags) child a
      (.memory d shared)
    have hpl := replaced_mapPage (v := v) (p := child) (a := a) (by
      intro x hx
      rw [hnone] at hx
      cases hx) d shared
    refine ⟨h.mapChild he hnone ?_, ⟨?_, ?_, hkeep.2.1, hkeep.2.2.1, hkeep.1, hkeep.2.2.2⟩⟩
    · intro hshared
      cases hfl : (v.pages d).flags.writable with
      | false => rfl
      | true => exact absurd ⟨hfl, hshared⟩ hw
    · apply forkedEntry_maps hpc he
      rw [hpl.maps, set_protect he rfl]
      rfl
    · intro x
      rw [show (v.mapPage child a d shared).pages = v.pages from
        Space.pages_setPageMapping _ _ _ _]
      exact ⟨rfl, rfl, rfl⟩

/-- A `FILE_MEMORY` entry: its flags are in the entry, so a private one is protected
on both sides. -/
theorem fork_fileMemory (h : Good v) (hpc : p ≠ child) {f : MemoryFilePage} {shared : Bool}
    (he : v.maps p a = some (.fileMemory f shared)) :
    Good (v.forkEntry p child a) ∧ ForkedEntry v p child a (v.forkEntry p child a) := by
  have hg := protectFile_page f shared
  unfold Space.forkEntry
  rw [he]
  dsimp only
  by_cases hw : f.flags.writable = true ∧ shared = false
  · rw [if_pos hw]
    have h₁ := h.setFileEntry (q := p) he hg.1 hg.2
    have he₁ : ((v.setEntry p a (some (.fileMemory (Kernel.protectFile f shared) shared))).map
        p a f.page (Kernel.protectFile f shared).flags).maps p a
        = some (.fileMemory (Kernel.protectFile f shared) shared) :=
      Maps.set_self v.maps p a _
    have h₂ := h₁.setFileEntry (q := child) he₁ (rfl : (Kernel.protectFile f shared).page = _) rfl
    rw [hg.1] at h₂
    exact ⟨h₂, ⟨forkedEntry_maps hpc he rfl, fun _ => ⟨rfl, rfl, rfl⟩, rfl, rfl, rfl, rfl⟩⟩
  · rw [if_neg hw]
    have hsame : Kernel.protectFile f shared = f := by
      unfold Kernel.protectFile
      rw [if_neg hw]
    refine ⟨h.setFileEntry he hg.1 hg.2,
      ⟨forkedEntry_maps hpc he ?_, fun _ => ⟨rfl, rfl, rfl⟩, rfl, rfl, rfl, rfl⟩⟩
    rw [set_protect he (congrArg (fun g => MemoryEntry.fileMemory g shared) hsame)]
    rfl

/-- **One round of `fork`.** -/
theorem forkEntry_spec (h : Good v) (hpc : p ≠ child) (hnone : v.maps child a = none) :
    Good (v.forkEntry p child a) ∧ ForkedEntry v p child a (v.forkEntry p child a) := by
  cases he : v.maps p a with
  | none =>
      unfold Space.forkEntry
      rw [he]
      exact ⟨h, forkedEntry_none hnone he⟩
  | some e =>
      cases e with
      | memory d shared => exact fork_memory h hpc hnone he
      | fileMemory f shared => exact fork_fileMemory h hpc he
      | anonymous flags zero =>
          unfold Space.forkEntry
          rw [he]
          exact fork_plain h hpc hnone he rfl rfl
      | sharedAnonymous o =>
          unfold Space.forkEntry
          rw [he]
          exact fork_plain h hpc hnone he rfl rfl
      | file f =>
          unfold Space.forkEntry
          rw [he]
          exact fork_plain h hpc hnone he rfl rfl
      | empty =>
          unfold Space.forkEntry
          rw [he]
          exact fork_plain h hpc hnone he rfl rfl

/-! ## §2. The loop. -/

/-- The entries in `done` have been copied. -/
structure Forking (v : Space) (p child : Nat) (done : List Nat) (v' : Space) : Prop where
  maps : ∀ q b, v'.maps q b = if (q = child ∨ q = p) ∧ b ∈ done then
    (v.maps p b).map MemoryEntry.protect else v.maps q b
  pages : ∀ x, (v'.pages x).kind = (v.pages x).kind ∧ (v'.pages x).addr = (v.pages x).addr
    ∧ (v'.pages x).bytes = (v.pages x).bytes
  anons : v'.anons = v.anons
  sharedPages : v'.sharedPages = v.sharedPages
  next : v'.next = v.next
  status : v'.status = v.status

theorem Forking.refl (v : Space) (p child : Nat) : Forking v p child [] v := by
  refine ⟨?_, fun _ => ⟨rfl, rfl, rfl⟩, rfl, rfl, rfl, rfl⟩
  intro q b
  rw [if_neg (by simp)]

theorem Forking.step {done : List Nat} (hf : Forking v p child done v') (ha : a ∉ done)
    (he : ForkedEntry v' p child a v'') : Forking v p child (a :: done) v'' := by
  -- the parent's own entry was untouched until now
  have hparent : v'.maps p a = v.maps p a := by
    rw [hf.maps, if_neg (by simp [ha])]
  refine ⟨?_, ?_, he.anons.trans hf.anons, he.sharedPages.trans hf.sharedPages,
    he.next.trans hf.next, he.status.trans hf.status⟩
  · intro q b
    rw [he.maps, hparent]
    by_cases hb : b = a
    · subst hb
      by_cases hq : q = child ∨ q = p
      · rw [if_pos ⟨hq, rfl⟩, if_pos ⟨hq, List.mem_cons_self⟩]
      · rw [if_neg (by simp [hq]), if_neg (by simp [hq]), hf.maps, if_neg (by simp [hq])]
    · rw [if_neg (by simp [hb]), hf.maps]
      by_cases hq : (q = child ∨ q = p) ∧ b ∈ done
      · rw [if_pos hq, if_pos ⟨hq.1, List.mem_cons_of_mem a hq.2⟩]
      · rw [if_neg hq, if_neg]
        intro hcons
        cases List.mem_cons.mp hcons.2 with
        | inl hba => exact hb hba
        | inr hbd => exact hq ⟨hcons.1, hbd⟩
  · intro x
    have h₁ := hf.pages x
    have h₂ := he.pages x
    exact ⟨h₂.1.trans h₁.1, h₂.2.1.trans h₁.2.1, h₂.2.2.trans h₁.2.2⟩

/-- The child still has no entry that is not done. -/
theorem Forking.child_none {done : List Nat} (hf : Forking v p child done v')
    (hnone : ∀ b, v.maps child b = none) (ha : a ∉ done) : v'.maps child a = none := by
  rw [hf.maps, if_neg (by simp [ha])]
  exact hnone a

/-- **The loop of `fork`**, and the kernel follows it. -/
theorem fork_loop (hpc : p ≠ child) (hp : v.status p ≠ .absent)
    (hchild : v.status child ≠ .absent) (hnone : ∀ b, v.maps child b = none) (keys : List Nat) :
    ∀ (v' : Space) (done : List Nat), Good v' → Forking v p child done v' → keys.Nodup →
      (∀ b, b ∈ keys → b ∉ done) →
      ∃ done', Good (keys.foldl (fun v a => v.forkEntry p child a) v')
        ∧ Forking v p child done' (keys.foldl (fun v a => v.forkEntry p child a) v')
        ∧ (∀ b, b ∈ done' ↔ b ∈ keys ∨ b ∈ done)
        ∧ ∀ s, Sim s v' 0 0 0 → Sim (keys.foldl (fun s a => s.forkEntry p child a) s)
          (keys.foldl (fun v a => v.forkEntry p child a) v') 0 0 0 := by
  induction keys with
  | nil =>
      intro v' done hv hf _ _
      exact ⟨done, hv, hf, fun b => by simp, fun s hs => hs⟩
  | cons x keys ih =>
      intro v' done hv hf hnodup hout
      have hx : x ∉ done := hout x List.mem_cons_self
      have hnx := hf.child_none hnone hx
      obtain ⟨hv₁, he₁⟩ := forkEntry_spec hv hpc hnx
      obtain ⟨hxk, hk⟩ := List.nodup_cons.mp hnodup
      obtain ⟨done', hv', hf', hmem, hsim⟩ := ih _ (x :: done) hv₁ (hf.step hx he₁) hk (by
        intro b hb hbd
        cases List.mem_cons.mp hbd with
        | inl hbx => exact hxk (hbx ▸ hb)
        | inr hbd => exact hout b (List.mem_cons_of_mem x hb) hbd)
      refine ⟨done', hv', hf', ?_, ?_⟩
      · intro b
        rw [hmem, List.mem_cons, List.mem_cons, or_left_comm, or_assoc]
      · intro s hs
        apply hsim
        exact hs.forkEntry (by rw [hf.status]; exact hp) (by rw [hf.status]; exact hchild) hpc hnx

/-! ## §3. The whole of `fork`. -/

/-- **What `fork` does**: parent and child have the parent's entries,
write-protected; contents stay. -/
structure Forked (v : Space) (p child : Nat) (v' : Space) : Prop where
  maps : ∀ q b, v'.maps q b = if q = child ∨ q = p then
    (v.maps p b).map MemoryEntry.protect else v.maps q b
  pages : ∀ x, (v'.pages x).kind = (v.pages x).kind ∧ (v'.pages x).addr = (v.pages x).addr
    ∧ (v'.pages x).bytes = (v.pages x).bytes
  anons : v'.anons = v.anons
  sharedPages : v'.sharedPages = v.sharedPages
  next : v'.next = v.next
  status : v'.status = Function.update v.status child .running

theorem fork_spec (h : Good v) (hp : v.status p = .running) (hchild : v.status child = .absent)
    (hnone : ∀ b, v.maps child b = none) {keys : List Nat} (hnodup : keys.Nodup)
    (hkeys : ∀ a, a ∈ keys ↔ v.maps p a ≠ none) :
    Good (v.fork p child keys) ∧ Forked v p child (v.fork p child keys)
      ∧ ∀ s, Sim s (v.setStatus child .running) 0 0 0 →
        Sim (keys.foldl (fun s a => s.forkEntry p child a) s) (v.fork p child keys) 0 0 0 := by
  have hpc : p ≠ child := by
    intro heq
    rw [heq, hchild] at hp
    cases hp
  have hstatus : (v.setStatus child .running).status
      = Function.update v.status child .running := rfl
  obtain ⟨done, hgood, hf, hmem, hsim⟩ := fork_loop (v := v.setStatus child .running) hpc
    (by rw [hstatus, Function.update_of_ne hpc, hp]; simp)
    (by rw [hstatus, Function.update_self]; simp) hnone keys
    (v.setStatus child .running) [] (h.setStatus child .running) (Forking.refl _ p child) hnodup
    (fun b _ => by simp)
  refine ⟨hgood, ⟨?_, hf.pages, hf.anons, hf.sharedPages, hf.next, hf.status⟩, hsim⟩
  intro q b
  rw [show (v.fork p child keys).maps q b = _ from hf.maps q b]
  show (if (q = child ∨ q = p) ∧ b ∈ done then (v.maps p b).map MemoryEntry.protect
    else v.maps q b) = _
  by_cases hq : q = child ∨ q = p
  · rw [if_pos hq]
    by_cases hb : b ∈ done
    · rw [if_pos ⟨hq, hb⟩]
    · -- an address the parent does not have
      have hpb : v.maps p b = none := by
        by_contra hpb
        exact hb ((hmem b).mpr (Or.inl ((hkeys b).mpr hpb)))
      rw [if_neg (by simp [hb]), hpb]
      cases hq with
      | inl hq => rw [hq]; exact hnone b
      | inr hq => rw [hq]; exact hpb
  · rw [if_neg (by simp [hq]), if_neg hq]

end Space

end MierOS.Tasking
