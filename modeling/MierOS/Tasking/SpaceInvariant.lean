/-
  MierOS.Tasking.SpaceInvariant
  **THE INVARIANT OF THE ADDRESS SPACES.**

  `Space.Good`: page tables and memory maps say the same (`agrees`); an entry
  holds a page of its own kind (`entries`), and so do shared anonymous pages and
  vnodes; copy-on-write marks stand on private pages only; and a private page
  that may be written is mapped once (`unique`).

  Every operation changes one slot, or one slot after another, and `Good.slot`
  is the lemma about that.  `Extends` is what all of them keep: a page once
  there stays what it is.
-/
import MierOS.Tasking.Simulation

namespace MierOS.Tasking

open Memory.Virtual
open Lib.Refs
open Function (update update_of_ne update_self)

namespace Space

/-! ## §1. The invariant. -/

/-- What the page table should hold for an entry. -/
def pteOf (v : Space) : Option MemoryEntry → Option (PagePtr × PageFlags)
  | some (.memory d _) => some (d, { (v.pages d).flags with present := true })
  | some (.fileMemory f _) => some (f.page, { f.flags with present := true })
  | _ => none

/-- The entry holds a page of its kind; a shared page is the one its origin
still has. -/
def EntryOk (v : Space) : MemoryEntry → Prop
  | .memory d false => d < v.next ∧ (v.pages d).kind = .priv
  | .memory d true => d < v.next ∧ (v.pages d).addr ≠ 0
      ∧ ∃ o, o < v.next ∧ (v.pages d).kind = .shared o ∧ (v.anons o).page = some d
  | .fileMemory f _ => f.page < v.next ∧ ∃ offset, (v.pages f.page).kind = .file f.file offset
  | .sharedAnonymous o => o < v.next
  | _ => True

/-- Who else holds a page holds one of its kind. -/
structure PagesOk (v : Space) : Prop where
  anons : ∀ o d, (v.anons o).page = some d →
    o < v.next ∧ d < v.next ∧ (v.pages d).kind = .shared o
  cache : ∀ file offset d, v.sharedPages file offset = some d →
    d < v.next ∧ (v.pages d).kind = .file file offset
  cow : ∀ d, (v.pages d).copyOnWrite = true → (v.pages d).kind = .priv

structure Good (v : Space) : Prop where
  agrees : ∀ p a, v.table p a = v.pteOf (v.maps p a)
  entries : ∀ p a e, v.maps p a = some e → v.EntryOk e
  pagesOk : PagesOk v
  /-- **A private page that may be written is mapped once.** -/
  unique : ∀ p a d, v.maps p a = some (.memory d false) → (v.pages d).flags.writable = true →
    ∀ q b e, v.maps q b = some e → e.held = some d → (q, b) = (p, a)

/-- Pages and shared anonymous pages stay what they are. -/
structure Extends (v v' : Space) : Prop where
  next : v.next ≤ v'.next
  pages : ∀ d, d < v.next → (v'.pages d).kind = (v.pages d).kind ∧ (v'.pages d).addr = (v.pages d).addr
  anons : ∀ o d, o < v.next → d < v.next → (v.anons o).page = some d → (v.pages d).addr ≠ 0 →
    (v'.anons o).page = some d

variable {v v' v'' : Space} {p a : Nat}

/-- Only maps, tables, statuses or vnodes change. -/
theorem Extends.of_eq (hnext : v'.next = v.next) (hpages : v'.pages = v.pages)
    (hanons : v'.anons = v.anons) : Extends v v' := by
  refine ⟨Nat.le_of_eq hnext.symm, ?_, ?_⟩
  · intro d _
    rw [hpages]
    exact ⟨rfl, rfl⟩
  · intro o d _ _ hpage _
    rw [hanons]
    exact hpage

theorem PagesOk.congr (h : PagesOk v) (hnext : v'.next = v.next) (hpages : v'.pages = v.pages)
    (hanons : v'.anons = v.anons) (hcache : v'.sharedPages = v.sharedPages) : PagesOk v' := by
  refine ⟨?_, ?_, ?_⟩
  · rw [hanons, hnext, hpages]
    exact h.anons
  · rw [hcache, hnext, hpages]
    exact h.cache
  · rw [hpages]
    exact h.cow

theorem EntryOk.lt {e : MemoryEntry} (h : v.EntryOk e) {d : PagePtr} (hd : e.held = some d) :
    d < v.next := by
  cases e with
  | memory x shared =>
      rw [← Option.some.inj hd]
      cases shared with
      | false => exact h.1
      | true => exact h.1
  | fileMemory f shared =>
      rw [← Option.some.inj hd]
      exact h.1
  | anonymous flags zero => cases hd
  | sharedAnonymous o => cases hd
  | file f => cases hd
  | empty => cases hd

theorem Good.lt (h : Good v) {e : MemoryEntry} {d : PagePtr} (he : v.maps p a = some e)
    (hd : e.held = some d) : d < v.next := (h.entries p a e he).lt hd

/-- An entry that holds a private page is a private one. -/
theorem EntryOk.eq_private {e : MemoryEntry} (h : v.EntryOk e) {d : PagePtr}
    (hkind : (v.pages d).kind = .priv) (hd : e.held = some d) : e = .memory d false := by
  cases e with
  | memory x shared =>
      have hxd : x = d := Option.some.inj hd
      subst hxd
      cases shared with
      | false => rfl
      | true =>
          obtain ⟨-, -, o, -, ho, -⟩ := h
          rw [hkind] at ho
          cases ho
  | fileMemory f shared =>
      have hxd : f.page = d := Option.some.inj hd
      obtain ⟨-, offset, ho⟩ := h
      rw [hxd, hkind] at ho
      cases ho
  | anonymous flags zero => cases hd
  | sharedAnonymous o => cases hd
  | file f => cases hd
  | empty => cases hd

theorem Good.table_held (h : Good v) {d : PagePtr} {flags : PageFlags}
    (ht : v.table p a = some (d, flags)) : ∃ e, v.maps p a = some e ∧ e.held = some d := by
  rw [h.agrees] at ht
  cases he : v.maps p a with
  | none => rw [he] at ht; cases ht
  | some e =>
      rw [he] at ht
      refine ⟨e, rfl, ?_⟩
      cases e with
      | memory x shared =>
          have hx := congrArg Prod.fst (Option.some.inj ht)
          exact congrArg some hx
      | fileMemory f shared =>
          have hx := congrArg Prod.fst (Option.some.inj ht)
          exact congrArg some hx
      | anonymous flags zero => cases ht
      | sharedAnonymous o => cases ht
      | file f => cases ht
      | empty => cases ht

/-- **An entry stays good** when pages only come to be. -/
theorem EntryOk.mono {e : MemoryEntry} (h : v.EntryOk e) (hext : Extends v v') :
    v'.EntryOk e := by
  cases e with
  | memory d shared =>
      cases shared with
      | false => exact ⟨Nat.lt_of_lt_of_le h.1 hext.next, (hext.pages d h.1).1.trans h.2⟩
      | true =>
          obtain ⟨hlt, haddr, o, ho, hkind, hpage⟩ := h
          refine ⟨Nat.lt_of_lt_of_le hlt hext.next, ?_, o, Nat.lt_of_lt_of_le ho hext.next,
            (hext.pages d hlt).1.trans hkind, hext.anons o d ho hlt hpage haddr⟩
          rw [(hext.pages d hlt).2]
          exact haddr
  | fileMemory f shared =>
      obtain ⟨hlt, offset, hkind⟩ := h
      exact ⟨Nat.lt_of_lt_of_le hlt hext.next, offset, (hext.pages _ hlt).1.trans hkind⟩
  | sharedAnonymous o => exact Nat.lt_of_lt_of_le h hext.next
  | anonymous flags zero => trivial
  | file f => trivial
  | empty => trivial

/-! ## §2. One slot changes. -/

/-- What the page table holds depends on the flags of the page only. -/
theorem pteOf_congr {e : Option MemoryEntry}
    (h : ∀ d shared, e = some (.memory d shared) → (v'.pages d).flags = (v.pages d).flags) :
    v'.pteOf e = v.pteOf e := by
  cases e with
  | none => rfl
  | some x =>
      cases x with
      | memory d shared =>
          show some (d, _) = some (d, _)
          rw [h d shared rfl]
      | fileMemory f shared => rfl
      | anonymous flags zero => rfl
      | sharedAnonymous o => rfl
      | file f => rfl
      | empty => rfl

/-- **One slot changes, and its page-table entry with it.**  Pages mapped
elsewhere keep their flags; a private page mapped in two places is read-only. -/
theorem Good.slot (h : Good v) (hext : Extends v v') (hpages : PagesOk v')
    (e' : Option MemoryEntry) (hmaps : v'.maps = v.maps.set p a e')
    (htable : ∀ q b, v'.table q b = if q = p ∧ b = a then v'.pteOf e' else v.table q b)
    (hflags : ∀ q b d shared, (q, b) ≠ (p, a) → v.maps q b = some (.memory d shared) →
      (v'.pages d).flags = (v.pages d).flags)
    (hentry : ∀ x, e' = some x → v'.EntryOk x)
    (hself : ∀ d, e' = some (.memory d false) → (v'.pages d).flags.writable = true →
      ∀ q b x, (q, b) ≠ (p, a) → v.maps q b = some x → x.held ≠ some d)
    (hother : ∀ x d, e' = some x → x.held = some d → ∀ q b, (q, b) ≠ (p, a) →
      v.maps q b = some (.memory d false) → (v'.pages d).flags.writable = false) : Good v' := by
  have hne : ∀ q b, ¬ (q = p ∧ b = a) → (q, b) ≠ (p, a) := by
    intro q b hqb heq
    exact hqb ⟨congrArg Prod.fst heq, congrArg Prod.snd heq⟩
  constructor
  case agrees =>
    intro q b
    rw [htable, hmaps, Maps.set_apply]
    split
    · rfl
    · rename_i hqb
      rw [h.agrees]
      symm
      apply pteOf_congr
      intro d shared he
      exact hflags q b d shared (hne q b hqb) he
  case entries =>
    intro q b e he
    rw [hmaps, Maps.set_apply] at he
    split at he
    · exact hentry e he
    · exact (h.entries q b e he).mono hext
  case pagesOk => exact hpages
  case unique =>
    intro q b d he hw q' b' e' he' hd
    rw [hmaps, Maps.set_apply] at he he'
    -- which of the two is the changed slot
    by_cases hqb : q = p ∧ b = a
    · rw [if_pos hqb] at he
      by_cases hqb' : q' = p ∧ b' = a
      · rw [hqb.1, hqb.2, hqb'.1, hqb'.2]
      · rw [if_neg hqb'] at he'
        exact absurd hd (hself d he hw q' b' e' (hne q' b' hqb') he')
    · rw [if_neg hqb] at he
      by_cases hqb' : q' = p ∧ b' = a
      · rw [if_pos hqb'] at he'
        rw [hother e' d he' hd q b (hne q b hqb) he] at hw
        cases hw
      · rw [if_neg hqb'] at he'
        rw [hflags q b d false (hne q b hqb) he] at hw
        exact h.unique q b d he hw q' b' e' he' hd

theorem Good.extend (h : Good v) (hext : Extends v v') (hpages : PagesOk v')
    (hmaps : v'.maps = v.maps) (htable : v'.table = v.table)
    (hflags : ∀ d, d < v.next → (v'.pages d).flags = (v.pages d).flags) : Good v' := by
  have hheld : ∀ q b d shared, v.maps q b = some (.memory d shared) →
      (v'.pages d).flags = (v.pages d).flags := by
    intro q b d shared he
    exact hflags d (h.lt he rfl)
  constructor
  case agrees =>
    intro q b
    rw [htable, hmaps, h.agrees]
    symm
    exact pteOf_congr fun d shared he => hheld q b d shared he
  case entries =>
    intro q b e he
    rw [hmaps] at he
    exact (h.entries q b e he).mono hext
  case pagesOk => exact hpages
  case unique =>
    intro q b d he hw
    rw [hmaps] at he ⊢
    rw [hheld q b d false he] at hw
    exact h.unique q b d he hw

/-! ## §3. Pages come to be, and change. -/

theorem modifyPage_pages (v : Space) (d : PagePtr) (f : PageInfo → PageInfo) (x : PagePtr) :
    (v.modifyPage d f).pages x = if x = d then f (v.pages x) else v.pages x := by
  by_cases hxd : x = d
  · subst hxd
    rw [if_pos rfl]
    exact update_self _ _ _
  · rw [if_neg hxd]
    exact update_of_ne hxd _ _

theorem setByte_pages (v : Space) (d : PagePtr) (o : Nat) (b : UInt8) (x : PagePtr) :
    (v.setByte d o b).pages x = if x = d then
      { v.pages x with bytes := update (v.pages x).bytes o b } else v.pages x := by
  unfold Space.setByte Space.setBytes
  rw [modifyPage_pages]
  by_cases hxd : x = d
  · rw [if_pos hxd, if_pos hxd, hxd]
  · rw [if_neg hxd, if_neg hxd]

theorem Extends.modifyPage (v : Space) (d : PagePtr) {f : PageInfo → PageInfo}
    (hf : ∀ D, (f D).kind = D.kind ∧ (f D).addr = D.addr) : Extends v (v.modifyPage d f) := by
  refine ⟨Nat.le_refl _, ?_, fun _ _ _ _ h _ => h⟩
  intro x _
  rw [modifyPage_pages]
  split
  · exact hf _
  · exact ⟨rfl, rfl⟩

theorem PagesOk.modifyPage (h : PagesOk v) (d : PagePtr) {f : PageInfo → PageInfo}
    (hf : ∀ D, (f D).kind = D.kind)
    (hcow : (f (v.pages d)).copyOnWrite = true → (v.pages d).kind = .priv) :
    PagesOk (v.modifyPage d f) := by
  have hkind : ∀ x, ((v.modifyPage d f).pages x).kind = (v.pages x).kind := by
    intro x
    rw [modifyPage_pages]
    split
    · exact hf _
    · rfl
  refine ⟨?_, ?_, ?_⟩
  · intro o x hx
    rw [hkind]
    exact h.anons o x hx
  · intro file offset x hx
    rw [hkind]
    exact h.cache file offset x hx
  · intro x hx
    rw [hkind]
    rw [modifyPage_pages] at hx
    split at hx
    · rename_i hxd
      rw [hxd] at hx ⊢
      exact hcow hx
    · exact h.cow x hx

theorem newPage_pages (v : Space) (kind : Kind) (frame : Nat) (bytes : Bytes) {x : PagePtr}
    (hx : x ≠ v.next) : (v.newPage kind frame bytes).pages x = v.pages x :=
  update_of_ne hx _ _

theorem newPage_self (v : Space) (kind : Kind) (frame : Nat) (bytes : Bytes) :
    (v.newPage kind frame bytes).pages v.next = ⟨kind, frame, defaultFlags, false, bytes⟩ :=
  update_self _ _ _

theorem Extends.newAnon (v : Space) (flags : PageFlags) (zero : Bool) :
    Extends v (v.newAnon flags zero) := by
  refine ⟨Nat.le_succ _, fun _ _ => ⟨rfl, rfl⟩, ?_⟩
  intro o d ho _ hpage _
  show (update v.anons v.next _ o).page = some d
  rw [update_of_ne (Nat.ne_of_lt ho)]
  exact hpage

theorem PagesOk.newAnon (h : PagesOk v) (flags : PageFlags) (zero : Bool) :
    PagesOk (v.newAnon flags zero) := by
  refine ⟨?_, ?_, ?_⟩
  · intro o d hpage
    have hpage' : (update v.anons v.next _ o).page = some d := hpage
    by_cases ho : o = v.next
    · rw [ho, update_self] at hpage'
      cases hpage'
    · rw [update_of_ne ho] at hpage'
      have hold := h.anons o d hpage'
      exact ⟨Nat.lt_succ_of_lt hold.1, Nat.lt_succ_of_lt hold.2.1, hold.2.2⟩
  · intro file offset d hd
    have hold := h.cache file offset d hd
    exact ⟨Nat.lt_succ_of_lt hold.1, hold.2⟩
  · exact h.cow

/-- A shared anonymous page gets a page in place of none, or of one without a
frame. -/
theorem Extends.setAnonPage (v : Space) {o : AnonPtr} (hnull : v.isNull (v.anons o).page = true)
    (d : PagePtr) : Extends v (v.setAnonPage o d) := by
  refine ⟨Nat.le_refl _, fun _ _ => ⟨rfl, rfl⟩, ?_⟩
  intro x y _ _ hpage haddr
  show (update v.anons o _ x).page = some y
  by_cases hxo : x = o
  · subst hxo
    rw [hpage] at hnull
    have hzero : (v.pages y).addr = 0 := of_decide_eq_true hnull
    exact absurd hzero haddr
  · rw [update_of_ne hxo]
    exact hpage

theorem PagesOk.setAnonPage (h : PagesOk v) {o : AnonPtr} (ho : o < v.next) {d : PagePtr}
    (hd : d < v.next) (hkind : (v.pages d).kind = .shared o) : PagesOk (v.setAnonPage o d) := by
  refine ⟨?_, h.cache, h.cow⟩
  intro x y hpage
  have hpage' : (update v.anons o { v.anons o with page := some d } x).page = some y := hpage
  by_cases hxo : x = o
  · subst hxo
    rw [update_self] at hpage'
    rw [← Option.some.inj hpage']
    exact ⟨ho, hd, hkind⟩
  · rw [update_of_ne hxo] at hpage'
    exact h.anons x y hpage'

theorem sharedPages_setSharedPage (v : Space) (file offset : Nat) (d : Option PagePtr) (f o : Nat) :
    (v.setSharedPage file offset d).sharedPages f o
      = if f = file ∧ o = offset then d else v.sharedPages f o := by
  show update v.sharedPages file (update (v.sharedPages file) offset d) f o = _
  by_cases hf : f = file
  · subst hf
    rw [update_self]
    by_cases ho : o = offset
    · subst ho
      rw [update_self, if_pos ⟨rfl, rfl⟩]
    · rw [update_of_ne ho, if_neg (by simp [ho])]
  · rw [update_of_ne hf, if_neg (by simp [hf])]

theorem PagesOk.setSharedPage (h : PagesOk v) {file offset : Nat} {d : Option PagePtr}
    (hd : ∀ x, d = some x → x < v.next ∧ (v.pages x).kind = .file file offset) :
    PagesOk (v.setSharedPage file offset d) := by
  refine ⟨h.anons, ?_, h.cow⟩
  intro f o x hx
  rw [sharedPages_setSharedPage] at hx
  split at hx
  · rename_i hfo
    rw [hfo.1, hfo.2]
    exact hd x hx
  · exact h.cache f o x hx

/-! ## §4. Mapping and unmapping. -/

theorem Good.setStatus (h : Good v) (p : Nat) (status : Status) : Good (v.setStatus p status) :=
  h.extend (Extends.of_eq rfl rfl rfl) (h.pagesOk.congr rfl rfl rfl rfl) rfl rfl (fun _ _ => rfl)

theorem Good.setBytes (h : Good v) (d : PagePtr) (bytes : Bytes) : Good (v.setBytes d bytes) := by
  have hext : Extends v (v.setBytes d bytes) := Extends.modifyPage v d fun _ => ⟨rfl, rfl⟩
  have hpages : PagesOk (v.setBytes d bytes) :=
    h.pagesOk.modifyPage d (fun _ => rfl) (h.pagesOk.cow d)
  apply h.extend hext hpages rfl rfl
  intro x _
  unfold Space.setBytes
  rw [modifyPage_pages]
  split <;> rfl

/-- The page table of an entry that holds nothing is empty. -/
theorem pteOf_unresolved {e : MemoryEntry} (he : e.held = none) : v.pteOf (some e) = none := by
  cases e with
  | memory d shared => cases he
  | fileMemory f shared => cases he
  | anonymous flags zero => rfl
  | sharedAnonymous o => rfl
  | file f => rfl
  | empty => rfl

theorem Good.table_unresolved (h : Good v) (hold : ∀ x, v.maps p a = some x → x.held = none) :
    v.table p a = none := by
  rw [h.agrees]
  cases he : v.maps p a with
  | none => rfl
  | some e => exact pteOf_unresolved (hold e he)

theorem unmapPage_frame (v : Space) (p a : Nat) :
    (v.unmapPage p a).pages = v.pages ∧ (v.unmapPage p a).anons = v.anons
      ∧ (v.unmapPage p a).sharedPages = v.sharedPages ∧ (v.unmapPage p a).next = v.next := by
  unfold Space.unmapPage
  cases v.maps p a with
  | none => exact ⟨rfl, rfl, rfl, rfl⟩
  | some e =>
      dsimp only
      split <;> exact ⟨rfl, rfl, rfl, rfl⟩

theorem Good.table_unmapPage (h : Good v) (p a q b : Nat) :
    (v.unmapPage p a).table q b = if q = p ∧ b = a then none else v.table q b := by
  have hsame : v.table p a = none → v.table q b = if q = p ∧ b = a then none else v.table q b := by
    intro hnone
    split
    · rename_i hqb
      rw [hqb.1, hqb.2, hnone]
    · rfl
  unfold Space.unmapPage
  cases he : v.maps p a with
  | none =>
      apply hsame
      apply h.table_unresolved
      intro x hx
      rw [he] at hx
      cases hx
  | some e =>
      dsimp only
      split
      · exact Space.table_setTable v p a none q b
      · rename_i hheld
        apply hsame
        apply h.table_unresolved
        intro x hx
        rw [he] at hx
        rw [← Option.some.inj hx]
        exact Option.not_isSome_iff_eq_none.mp hheld

theorem Good.unmapPage (h : Good v) (p a : Nat) : Good (v.unmapPage p a) := by
  have hframe := v.unmapPage_frame p a
  apply h.slot (Extends.of_eq hframe.2.2.2 hframe.1 hframe.2.1)
    (h.pagesOk.congr hframe.2.2.2 hframe.1 hframe.2.1 hframe.2.2.1) none
    (v.maps_unmapPage p a) (h.table_unmapPage p a)
  · intro q b d shared _ _
    rw [hframe.1]
  · intro x hx
    cases hx
  · intro d hd
    cases hd
  · intro x d hx
    cases hx

/-- An entry that holds nothing, at an address with no entry. -/
theorem Good.insertEntry (h : Good v) (hnone : v.maps p a = none) {e : MemoryEntry}
    (hheld : e.held = none) (hok : v.EntryOk e) : Good (v.setEntry p a (some e)) := by
  have hext : Extends v (v.setEntry p a (some e)) := Extends.of_eq rfl rfl rfl
  apply h.slot hext (h.pagesOk.congr rfl rfl rfl rfl) (some e) rfl
  · intro q b
    split
    · rename_i hqb
      rw [hqb.1, hqb.2, pteOf_unresolved hheld]
      apply h.table_unresolved
      intro x hx
      rw [hnone] at hx
      cases hx
    · rfl
  · intro q b d shared _ _
    rfl
  · intro x hx
    rw [← Option.some.inj hx]
    exact hok.mono hext
  · intro d hd
    rw [Option.some.inj hd] at hheld
    cases hheld
  · intro x d hx hd
    rw [← Option.some.inj hx, hheld] at hd
    cases hd

theorem Good.setPageMapping (h : Good v) (p a : Nat) {e : MemoryEntry} (hheld : e.held = none)
    (hok : v.EntryOk e) : Good (v.setPageMapping p a e) := by
  have hframe := v.unmapPage_frame p a
  apply (h.unmapPage p a).insertEntry _ hheld
    (hok.mono (Extends.of_eq hframe.2.2.2 hframe.1 hframe.2.1))
  rw [Space.maps_unmapPage, Maps.set_self]

/-- **One slot gets entry `e`**, whose page `d` becomes `D`; no other slot and
no other page changes. -/
structure Replaced (v : Space) (p a : Nat) (e : MemoryEntry) (d : PagePtr) (D : PageInfo)
    (v' : Space) : Prop where
  maps : v'.maps = v.maps.set p a (some e)
  table : ∀ q b, v'.table q b = if q = p ∧ b = a then v'.pteOf (some e) else v.table q b
  page : v'.pages d = D
  old : ∀ x, x ≠ d → v'.pages x = v.pages x
  next : v.next ≤ v'.next

/-- `map` and `set_page_mapping` where nothing was mapped. -/
theorem replaced_setPageMapping (hold : ∀ x, v.maps p a = some x → x.held = none) (d : PagePtr)
    (flags : PageFlags) (e : MemoryEntry)
    (hpte : v.pteOf (some e) = some (d, { flags with present := true })) :
    Replaced v p a e d (v.pages d) ((v.map p a d flags).setPageMapping p a e) := by
  have hframe := (v.map p a d flags).unmapPage_frame p a
  constructor
  case maps =>
    show ((v.map p a d flags).unmapPage p a).maps.set p a _ = _
    rw [Space.maps_unmapPage]
    funext q b
    rw [Maps.set_apply, Maps.set_apply, Maps.set_apply]
    split <;> rfl
  case table =>
    intro q b
    have hkeep : ((v.map p a d flags).setPageMapping p a e).table = (v.map p a d flags).table :=
      Space.table_setPageMapping _ e hold
    have hsame : ((v.map p a d flags).setPageMapping p a e).pteOf (some e) = v.pteOf (some e) :=
      pteOf_congr fun x _ _ => by rw [Space.pages_setPageMapping]; rfl
    rw [hkeep, hsame, hpte]
    exact Space.table_setTable v p a _ q b
  case page =>
    rw [Space.pages_setPageMapping]
    rfl
  case old =>
    intro x _
    rw [Space.pages_setPageMapping]
    rfl
  case next => exact Nat.le_of_eq hframe.2.2.2.symm

/-- **The invariant, after one slot is replaced.**  The page keeps its flags if
it is mapped elsewhere, and a private page mapped elsewhere is not writable. -/
theorem Good.replaced (h : Good v) {e : MemoryEntry} {d : PagePtr} {D : PageInfo}
    (hr : Replaced v p a e d D v') (hext : Extends v v') (hpages : PagesOk v')
    (hed : e.held = some d) (hok : v'.EntryOk e)
    (hflags : ∀ q b shared, (q, b) ≠ (p, a) → v.maps q b = some (.memory d shared) →
      D.flags = (v.pages d).flags)
    (hself : e = .memory d false → D.flags.writable = true →
      ∀ q b x, (q, b) ≠ (p, a) → v.maps q b = some x → x.held ≠ some d) : Good v' := by
  apply h.slot hext hpages (some e) hr.maps hr.table
  · intro q b x shared hqb he
    by_cases hxd : x = d
    · subst hxd
      rw [hr.page]
      exact hflags q b shared hqb he
    · rw [hr.old x hxd]
  · intro x hx
    rw [← Option.some.inj hx]
    exact hok
  · intro x hx hw
    have hxd : x = d := by
      rw [Option.some.inj hx] at hed
      exact Option.some.inj hed
    subst hxd
    rw [hr.page] at hw
    exact hself (Option.some.inj hx) hw
  · intro x y hx hy q b hqb hmaps
    rw [← Option.some.inj hx, hed] at hy
    have hdy : d = y := Option.some.inj hy
    subst hdy
    rw [hr.page]
    cases hw : D.flags.writable with
    | false => rfl
    | true =>
        -- the page is private, so the entry is too
        have hprivate := h.entries q b _ hmaps
        have hkind := (hext.pages d hprivate.1).1.trans hprivate.2
        exact absurd rfl (hself (hok.eq_private hkind hed) hw q b _ hqb hmaps)

/-- **The invariant over a loop.** -/
theorem Good.foldl {g : Space → Nat → Space} (hstep : ∀ v x, Good v → Good (g v x)) (l : List Nat)
    (h : Good v) : Good (l.foldl g v) := by
  induction l generalizing v with
  | nil => exact h
  | cons x l ih => exact ih (hstep v x h)

theorem Good.allocShared (h : Good v) (p x : Nat) (flags : PageFlags) (zero : Bool) :
    Good (v.allocShared p x flags zero) := by
  have h₁ : Good (v.newAnon flags zero) :=
    h.extend (Extends.newAnon v flags zero) (h.pagesOk.newAnon flags zero) rfl rfl (fun _ _ => rfl)
  exact h₁.setPageMapping p x rfl (Nat.lt_succ_self v.next)

/-- A range of entries that hold nothing. -/
theorem Good.setRange (h : Good v) (p : Nat) (l : List Nat) {e : MemoryEntry} (hheld : e.held = none)
    (hok : ∀ v : Space, v.EntryOk e) : Good (l.foldl (fun v x => v.setPageMapping p x e) v) :=
  Good.foldl (fun v x hv => hv.setPageMapping p x hheld (hok v)) l h

theorem Good.nullPages (h : Good v) (p a n : Nat) : Good (v.nullPages p a n) :=
  h.setRange p _ rfl (fun _ => trivial)

theorem Good.allocPages (h : Good v) (p a n flags prot : Nat) :
    Good (v.allocPages p a n flags prot) := by
  unfold Space.allocPages
  split
  · exact Good.foldl (fun _ x hv => hv.allocShared p x _ _) _ h
  · exact h.setRange p _ rfl (fun _ => trivial)

theorem Good.filePages (h : Good v) (p a n file offset : Nat) (shared write execute : Bool) :
    Good (v.filePages p a n file offset shared write execute) :=
  h.setRange p _ rfl (fun _ => trivial)

theorem Good.unmapPages (h : Good v) (p a n : Nat) : Good (v.unmapPages p a n) :=
  Good.foldl (fun _ x hv => hv.unmapPage p x) _ h

/-! ## §5. What the ranges hold. -/

/-- Everything but maps and tables is as before. -/
structure Untouched (v v' : Space) : Prop where
  pages : v'.pages = v.pages
  anons : v'.anons = v.anons
  sharedPages : v'.sharedPages = v.sharedPages
  next : v'.next = v.next
  status : v'.status = v.status

theorem Untouched.trans (h : Untouched v v') (h' : Untouched v' v'') : Untouched v v'' :=
  ⟨h'.pages.trans h.pages, h'.anons.trans h.anons, h'.sharedPages.trans h.sharedPages,
    h'.next.trans h.next, h'.status.trans h.status⟩

theorem untouched_unmapPage (v : Space) (p a : Nat) : Untouched v (v.unmapPage p a) :=
  have hframe := v.unmapPage_frame p a
  ⟨hframe.1, hframe.2.1, hframe.2.2.1, hframe.2.2.2, v.status_unmapPage p a⟩

theorem untouched_setPageMapping (v : Space) (p a : Nat) (e : MemoryEntry) :
    Untouched v (v.setPageMapping p a e) :=
  have hframe := v.unmapPage_frame p a
  ⟨hframe.1, hframe.2.1, hframe.2.2.1, hframe.2.2.2, v.status_setPageMapping p a e⟩

theorem maps_setPageMapping (v : Space) (p a : Nat) (e : MemoryEntry) :
    (v.setPageMapping p a e).maps = v.maps.set p a (some e) := by
  show (v.unmapPage p a).maps.set p a (some e) = _
  rw [Space.maps_unmapPage]
  funext q b
  rw [Maps.set_apply, Maps.set_apply, Maps.set_apply]
  split <;> rfl

/-- **A loop that writes the same entry at every page of a list.** -/
theorem foldl_set {g : Space → Nat → Space} {e : Option MemoryEntry}
    (hmaps : ∀ v x, (g v x).maps = v.maps.set p x e) (hkeep : ∀ v x, Untouched v (g v x))
    (l : List Nat) (v : Space) :
    (∀ q b, (l.foldl g v).maps q b = if q = p ∧ b ∈ l then e else v.maps q b)
      ∧ Untouched v (l.foldl g v) := by
  induction l generalizing v with
  | nil =>
      refine ⟨?_, ⟨rfl, rfl, rfl, rfl, rfl⟩⟩
      intro q b
      rw [if_neg (by simp)]
      rfl
  | cons x l ih =>
      obtain ⟨hrest, hun⟩ := ih (g v x)
      refine ⟨?_, (hkeep v x).trans hun⟩
      intro q b
      show (l.foldl g (g v x)).maps q b = _
      rw [hrest, hmaps, Maps.set_apply]
      by_cases hq : q = p
      · by_cases hbl : b ∈ l
        · rw [if_pos ⟨hq, hbl⟩, if_pos ⟨hq, List.mem_cons_of_mem x hbl⟩]
        · rw [if_neg (by simp [hbl])]
          by_cases hbx : b = x
          · rw [if_pos ⟨hq, hbx⟩, if_pos ⟨hq, by simp [hbx]⟩]
          · rw [if_neg (by simp [hbx]), if_neg (by simp [hbx, hbl])]
      · rw [if_neg (by simp [hq]), if_neg (by simp [hq]), if_neg (by simp [hq])]

theorem nullPages_spec (v : Space) (p a n : Nat) :
    (∀ q b, (v.nullPages p a n).maps q b
      = if q = p ∧ b ∈ Kernel.pagesOf a n then some .empty else v.maps q b)
      ∧ Untouched v (v.nullPages p a n) :=
  foldl_set (fun v x => maps_setPageMapping v p x .empty)
    (fun v x => untouched_setPageMapping v p x .empty) _ v

theorem filePages_spec (v : Space) (p a n file offset : Nat) (shared write execute : Bool) :
    (∀ q b, (v.filePages p a n file offset shared write execute).maps q b
      = if q = p ∧ b ∈ Kernel.pagesOf a n then
          some (.file ⟨file, a, offset, shared, write, execute⟩) else v.maps q b)
      ∧ Untouched v (v.filePages p a n file offset shared write execute) :=
  foldl_set (fun v x => maps_setPageMapping v p x _) (fun v x => untouched_setPageMapping v p x _) _ v

theorem unmapPages_spec (v : Space) (p a n : Nat) :
    (∀ q b, (v.unmapPages p a n).maps q b
      = if q = p ∧ b ∈ Kernel.pagesOf a n then none else v.maps q b)
      ∧ Untouched v (v.unmapPages p a n) :=
  foldl_set (fun v x => v.maps_unmapPage p x) (fun v x => untouched_unmapPage v p x) _ v

/-- `alloc_pages` without sharing. -/
theorem allocPrivate_spec (v : Space) (p a n : Nat) {flags prot : Nat}
    (hpriv : ¬ (flags.testBit 0 = true ∧ prot ≠ 0)) :
    (∀ q b, (v.allocPages p a n flags prot).maps q b
      = if q = p ∧ b ∈ Kernel.pagesOf a n then
          some (.anonymous (Kernel.protFlags prot) (flags.testBit 3)) else v.maps q b)
      ∧ Untouched v (v.allocPages p a n flags prot) := by
  unfold Space.allocPages
  rw [if_neg hpriv]
  exact foldl_set (fun v x => maps_setPageMapping v p x _)
    (fun v x => untouched_setPageMapping v p x _) _ v

/-- **Shared `alloc_pages`**: every page gets a shared anonymous page of its
own. -/
structure AllocatedShared (v : Space) (p : Nat) (l : List Nat) (flags : PageFlags) (v' : Space) :
    Prop where
  inside : ∀ b, b ∈ l → ∃ o, v.next ≤ o ∧ o < v'.next ∧ v'.maps p b = some (.sharedAnonymous o)
    ∧ (v'.anons o).page = none ∧ (v'.anons o).flags = flags
  outside : ∀ q b, ¬ (q = p ∧ b ∈ l) → v'.maps q b = v.maps q b
  injective : ∀ b c o, b ∈ l → c ∈ l → v'.maps p b = some (.sharedAnonymous o) →
    v'.maps p c = some (.sharedAnonymous o) → b = c
  old : ∀ o, o < v.next → v'.anons o = v.anons o
  pages : v'.pages = v.pages
  sharedPages : v'.sharedPages = v.sharedPages
  next : v.next ≤ v'.next
  status : v'.status = v.status

/-- The pointers of the pages are new. -/
theorem AllocatedShared.fresh {w : Space} {l : List Nat} {flags : PageFlags} {b : Nat}
    {o : AnonPtr} (h : AllocatedShared v p l flags w) (hb : b ∈ l)
    (hbo : w.maps p b = some (.sharedAnonymous o)) : v.next ≤ o := by
  obtain ⟨o', hle, -, hbo', -⟩ := h.inside b hb
  rw [hbo] at hbo'
  rw [show o = o' from MemoryEntry.sharedAnonymous.inj (Option.some.inj hbo')]
  exact hle

/-- One round more, in front of the others. -/
theorem AllocatedShared.cons {w : Space} {flags : PageFlags} {zero : Bool} {l : List Nat} {x : Nat}
    (hrest : AllocatedShared (v.allocShared p x flags zero) p l flags w) :
    AllocatedShared v p (x :: l) flags w := by
  have hun := untouched_setPageMapping (v.newAnon flags zero) p x (.sharedAnonymous v.next)
  have hmaps : (v.allocShared p x flags zero).maps
      = v.maps.set p x (some (.sharedAnonymous v.next)) :=
    maps_setPageMapping (v.newAnon flags zero) p x _
  have hnext : (v.allocShared p x flags zero).next = v.next + 1 := hun.next
  have hanon : (v.allocShared p x flags zero).anons
      = update v.anons v.next ⟨flags, zero, none⟩ := hun.anons
  have hlt : v.next < (v.allocShared p x flags zero).next := by
    rw [hnext]
    exact Nat.lt_succ_self _
  -- the page of this round, unless it is written again
  have hfirst : x ∉ l → w.maps p x = some (.sharedAnonymous v.next) := by
    intro hx
    rw [hrest.outside p x (by simp [hx]), hmaps, Maps.set_self]
  constructor
  case inside =>
    intro b hb
    by_cases hbl : b ∈ l
    · obtain ⟨o, hle, hltw, hrestb⟩ := hrest.inside b hbl
      exact ⟨o, Nat.le_of_lt (Nat.lt_of_lt_of_le hlt hle), hltw, hrestb⟩
    · have hbx : b = x := by
        cases List.mem_cons.mp hb with
        | inl hbx => exact hbx
        | inr hin => exact absurd hin hbl
      subst hbx
      refine ⟨v.next, Nat.le_refl _, Nat.lt_of_lt_of_le hlt hrest.next, hfirst hbl, ?_⟩
      rw [hrest.old v.next hlt, hanon, update_self]
      exact ⟨rfl, rfl⟩
  case outside =>
    intro q b hqb
    rw [hrest.outside q b (by
      intro hin
      exact hqb ⟨hin.1, List.mem_cons_of_mem x hin.2⟩), hmaps, Maps.set_of_ne]
    intro heq
    apply hqb
    rw [(Prod.mk.inj heq).1, (Prod.mk.inj heq).2]
    exact ⟨rfl, List.mem_cons_self⟩
  case injective =>
    have hlater : ∀ b o, b ∈ l → w.maps p b = some (.sharedAnonymous o) → o ≠ v.next := by
      intro b o hb hbo
      exact Nat.ne_of_gt (Nat.lt_of_lt_of_le hlt (hrest.fresh hb hbo))
    have hround : ∀ b, b ∈ x :: l → b ∉ l → b = x := by
      intro b hb hbl
      cases List.mem_cons.mp hb with
      | inl hbx => exact hbx
      | inr hin => exact absurd hin hbl
    have hthis : ∀ b o, b ∉ l → b = x → w.maps p b = some (.sharedAnonymous o) → o = v.next := by
      intro b o hbl hbx hbo
      subst hbx
      rw [hfirst hbl] at hbo
      exact (MemoryEntry.sharedAnonymous.inj (Option.some.inj hbo)).symm
    intro b c o hb hc hbo hco
    by_cases hbl : b ∈ l
    · by_cases hcl : c ∈ l
      · exact hrest.injective b c o hbl hcl hbo hco
      · exact absurd (hthis c o hcl (hround c hc hcl) hco) (hlater b o hbl hbo)
    · by_cases hcl : c ∈ l
      · exact absurd (hthis b o hbl (hround b hb hbl) hbo) (hlater c o hcl hco)
      · rw [hround b hb hbl, hround c hc hcl]
  case old =>
    intro o ho
    rw [hrest.old o (Nat.lt_trans ho hlt), hanon, update_of_ne (Nat.ne_of_lt ho)]
  case pages => exact hrest.pages.trans hun.pages
  case sharedPages => exact hrest.sharedPages.trans hun.sharedPages
  case next => exact Nat.le_of_lt (Nat.lt_of_lt_of_le hlt hrest.next)
  case status => exact hrest.status.trans hun.status

theorem allocShared_foldl (p : Nat) (flags : PageFlags) (zero : Bool) (l : List Nat) (v : Space) :
    AllocatedShared v p l flags (l.foldl (fun v x => v.allocShared p x flags zero) v) := by
  induction l generalizing v with
  | nil =>
      refine ⟨?_, fun _ _ _ => rfl, ?_, fun _ _ => rfl, rfl, rfl, Nat.le_refl _, rfl⟩
      · intro b hb
        cases hb
      · intro b c o hb
        cases hb
  | cons x l ih => exact (ih (v.allocShared p x flags zero)).cons

/-- `alloc_pages` with sharing. -/
theorem allocShared_spec (v : Space) (p a n : Nat) {flags prot : Nat}
    (hshared : flags.testBit 0 = true ∧ prot ≠ 0) :
    AllocatedShared v p (Kernel.pagesOf a n) (Kernel.protFlags prot)
      (v.allocPages p a n flags prot) := by
  unfold Space.allocPages
  rw [if_pos hshared]
  exact allocShared_foldl p _ _ _ v

/-! ## §6. Page faults. -/

theorem setFlags_pages (v : Space) (d : PagePtr) (flags : PageFlags) (x : PagePtr) :
    (v.setFlags d flags).pages x = if x = d then { v.pages x with flags := flags } else v.pages x :=
  modifyPage_pages v d _ x

/-- The page a resolve makes: new, of the kind asked for, and nobody's. -/
structure Resolved (v : Space) (kind : Kind) (frame : Nat) (flags : PageFlags) (v' : Space) :
    Prop where
  maps : v'.maps = v.maps
  table : v'.table = v.table
  status : v'.status = v.status
  next : v'.next = v.next + 1
  anons : v'.anons = v.anons
  old : ∀ x, x ≠ v.next → v'.pages x = v.pages x
  kind : (v'.pages v.next).kind = kind
  addr : (v'.pages v.next).addr = frame
  flags : (v'.pages v.next).flags = flags
  copyOnWrite : (v'.pages v.next).copyOnWrite = false

theorem Resolved.extends {kind : Kind} {frame : Nat} {flags : PageFlags}
    (h : Resolved v kind frame flags v') : Extends v v' := by
  refine ⟨by rw [h.next]; omega, ?_, ?_⟩
  · intro d hd
    rw [h.old d (Nat.ne_of_lt hd)]
    exact ⟨rfl, rfl⟩
  · intro o d _ _ hpage _
    rw [h.anons]
    exact hpage

theorem resolved_newPage (v : Space) (kind : Kind) (frame : Nat) (flags : PageFlags)
    (junk : Bytes) : Resolved v kind frame flags ((v.newPage kind frame junk).setFlags v.next flags) := by
  constructor
  case old =>
    intro x hx
    rw [setFlags_pages, if_neg hx]
    exact newPage_pages v kind frame junk hx
  case kind => rw [setFlags_pages, if_pos rfl, newPage_self]
  case addr => rw [setFlags_pages, if_pos rfl, newPage_self]
  case flags => rw [setFlags_pages, if_pos rfl]
  case copyOnWrite => rw [setFlags_pages, if_pos rfl, newPage_self]
  all_goals rfl

theorem Resolved.setBytes {kind : Kind} {frame : Nat} {flags : PageFlags}
    (h : Resolved v kind frame flags v') (bytes : Bytes) :
    Resolved v kind frame flags (v'.setBytes v.next bytes) := by
  have hpages : ∀ x, (v'.setBytes v.next bytes).pages x
      = if x = v.next then { v'.pages x with bytes := bytes } else v'.pages x :=
    modifyPage_pages v' v.next _
  constructor
  case maps => exact h.maps
  case table => exact h.table
  case status => exact h.status
  case next => exact h.next
  case anons => exact h.anons
  case old =>
    intro x hx
    rw [hpages, if_neg hx]
    exact h.old x hx
  case kind => rw [hpages, if_pos rfl]; exact h.kind
  case addr => rw [hpages, if_pos rfl]; exact h.addr
  case flags => rw [hpages, if_pos rfl]; exact h.flags
  case copyOnWrite => rw [hpages, if_pos rfl]; exact h.copyOnWrite

theorem resolved_resolveAnonymous (v : Space) (kind : Kind) (flags : PageFlags) (zero : Bool)
    (frame : Nat) (mem : Nat → Bytes) :
    Resolved v kind frame flags (v.resolveAnonymous kind flags zero frame mem)
      ∧ (v.resolveAnonymous kind flags zero frame mem).sharedPages = v.sharedPages := by
  have h := resolved_newPage v kind frame flags (mem frame)
  unfold Space.resolveAnonymous
  dsimp only
  split
  · exact ⟨h.setBytes _, rfl⟩
  · exact ⟨h, rfl⟩

theorem PagesOk.resolved (h : PagesOk v) {kind : Kind} {frame : Nat} {flags : PageFlags}
    (hr : Resolved v kind frame flags v') (hcache : v'.sharedPages = v.sharedPages) :
    PagesOk v' := by
  refine ⟨?_, ?_, ?_⟩
  · intro o d hpage
    rw [hr.anons] at hpage
    have hold := h.anons o d hpage
    rw [hr.next, hr.old d (Nat.ne_of_lt hold.2.1)]
    exact ⟨Nat.lt_succ_of_lt hold.1, Nat.lt_succ_of_lt hold.2.1, hold.2.2⟩
  · intro file offset d hd
    rw [hcache] at hd
    have hold := h.cache file offset d hd
    rw [hr.next, hr.old d (Nat.ne_of_lt hold.1)]
    exact ⟨Nat.lt_succ_of_lt hold.1, hold.2⟩
  · intro d hcow
    by_cases hd : d = v.next
    · rw [hd, hr.copyOnWrite] at hcow
      cases hcow
    · rw [hr.old d hd] at hcow ⊢
      exact h.cow d hcow

theorem Good.resolved (h : Good v) {kind : Kind} {frame : Nat} {flags : PageFlags}
    (hr : Resolved v kind frame flags v') (hcache : v'.sharedPages = v.sharedPages) : Good v' := by
  apply h.extend hr.extends (h.pagesOk.resolved hr hcache) hr.maps hr.table
  intro d hd
  rw [hr.old d (Nat.ne_of_lt hd)]

/-- A page new in `v₁` is placed in a slot of `v`. -/
theorem Resolved.replaced {kind : Kind} {frame : Nat} {flags : PageFlags} {v₁ : Space}
    (hr : Resolved v kind frame flags v₁) {e : MemoryEntry} {D : PageInfo}
    (hpl : Replaced v₁ p a e v.next D v') : Replaced v p a e v.next D v' := by
  constructor
  case maps => rw [hpl.maps, hr.maps]
  case table =>
    intro q b
    rw [hpl.table, hr.table]
  case page => exact hpl.page
  case old =>
    intro x hx
    rw [hpl.old x hx, hr.old x hx]
  case next => exact Nat.le_trans hr.extends.next hpl.next

/-- The contents of the page in the slot change too. -/
theorem Replaced.setBytes {e : MemoryEntry} {d : PagePtr} {D : PageInfo}
    (hr : Replaced v p a e d D v') (bytes : Bytes) :
    Replaced v p a e d { D with bytes := bytes } (v'.setBytes d bytes) := by
  have hpages : ∀ x, (v'.setBytes d bytes).pages x
      = if x = d then { v'.pages x with bytes := bytes } else v'.pages x := modifyPage_pages v' d _
  constructor
  case maps => exact hr.maps
  case table =>
    intro q b
    have hsame : (v'.setBytes d bytes).pteOf (some e) = v'.pteOf (some e) := by
      apply pteOf_congr
      intro x _ _
      rw [hpages]
      split <;> rfl
    rw [hsame]
    exact hr.table q b
  case page => rw [hpages, if_pos rfl, hr.page]
  case old =>
    intro x hx
    rw [hpages, if_neg hx, hr.old x hx]
  case next => exact hr.next

theorem Replaced.setStatus {e : MemoryEntry} {d : PagePtr} {D : PageInfo}
    (hr : Replaced v p a e d D v') (q : Nat) (status : Status) :
    Replaced v p a e d D (v'.setStatus q status) :=
  ⟨hr.maps, hr.table, hr.page, hr.old, hr.next⟩

end Space

end MierOS.Tasking
