/-
  MierOS.Tasking.CopyOnWrite
  **COPY-ON-WRITE FORK IS AN EAGER COPY**, for private anonymous memory.

  `expected hist p a` is what a page of private memory should hold after the
  events of `hist`, if forks copied every byte at once: zeros when it is mapped,
  the parent's bytes when the process is created, and then what the process
  itself writes.  `privateBytes` is what it does hold.  Every event keeps the
  two equal (`Eager.step`), so every read returns what is expected.

  A process that is stopped inside a page fault reads nothing any more; its
  pages may be half initialised.
-/
import MierOS.Tasking.Replay

namespace MierOS.Tasking

open Memory.Virtual
open Lib.Refs
open Lib (Run)

variable {s s' : Kernel} {v v' : Space} {p a child : Nat} {m : Machine}

/-! ## §1. The specification. -/

/-- **Private memory with eager copies**, from the history alone; most recent
event first.  Nothing where no private memory is mapped. -/
def expected : List Event → Nat → Nat → Option Bytes
  | [], _, _ => none
  | .allocPages q b n flags prot :: hist, p, a =>
      if q = p ∧ a ∈ Kernel.pagesOf b n then
        if flags.testBit 0 ∧ prot ≠ 0 then none else some fun _ => 0
      else expected hist p a
  | .nullPages q b n :: hist, p, a =>
      if q = p ∧ a ∈ Kernel.pagesOf b n then none else expected hist p a
  | .filePages q b n _ _ _ _ _ :: hist, p, a =>
      if q = p ∧ a ∈ Kernel.pagesOf b n then none else expected hist p a
  | .unmapPages q b n :: hist, p, a =>
      if q = p ∧ a ∈ Kernel.pagesOf b n then none else expected hist p a
  | .fork q child _ :: hist, p, a => if p = child then expected hist q a else expected hist p a
  | .userWrite q b o x :: hist, p, a =>
      if q = p ∧ b = a then (expected hist p a).map fun bytes => Function.update bytes o x
      else expected hist p a
  | .userRead _ _ _ _ :: hist, p, a => expected hist p a
  | .pageFault _ _ _ _ :: hist, p, a => expected hist p a

/-- Private anonymous memory, touched or not. -/
def MemoryEntry.Private : MemoryEntry → Prop
  | .memory _ false => True
  | .anonymous _ _ => True
  | _ => False

/-- What a page of private memory holds. -/
def Space.privateBytes (v : Space) (p a : Nat) : Option Bytes :=
  match v.maps p a with
  | some (.memory d false) => some (v.pages d).bytes
  | some (.anonymous _ _) => some fun _ => 0
  | _ => none

/-! ## §2. What keeps private memory. -/

/-- The same entry, and the same contents of its page. -/
theorem Space.privateBytes_congr {q b : Nat} (hmaps : v'.maps q b = v.maps q b)
    (hbytes : ∀ d, v.maps q b = some (.memory d false) → (v'.pages d).bytes = (v.pages d).bytes) :
    v'.privateBytes q b = v.privateBytes q b := by
  unfold Space.privateBytes
  rw [hmaps]
  cases he : v.maps q b with
  | none => rfl
  | some e =>
      cases e with
      | memory d shared =>
          cases shared with
          | true => rfl
          | false =>
              dsimp only
              rw [hbytes d he]
      | fileMemory f shared => rfl
      | anonymous flags zero => rfl
      | sharedAnonymous o => rfl
      | file f => rfl
      | empty => rfl

/-- A slot is replaced: private memory elsewhere stays, if its pages do. -/
theorem Space.Replaced.privateBytes {e : MemoryEntry} {d : PagePtr} {D : PageInfo} {q b : Nat}
    (hr : Space.Replaced v p a e d D v') (hqb : (q, b) ≠ (p, a))
    (hd : v.maps q b = some (.memory d false) → D.bytes = (v.pages d).bytes) :
    v'.privateBytes q b = v.privateBytes q b := by
  apply Space.privateBytes_congr
  · rw [hr.maps, Maps.set_of_ne _ _ hqb]
  · intro x hx
    by_cases hxd : x = d
    · subst hxd
      rw [hr.page]
      exact hd hx
    · rw [hr.old x hxd]

theorem Space.privateBytes_none {e : MemoryEntry} (he : v.maps p a = some e) (hpriv : ¬ e.Private) :
    v.privateBytes p a = none := by
  unfold Space.privateBytes
  rw [he]
  cases e with
  | memory d shared =>
      cases shared with
      | true => rfl
      | false => exact absurd trivial hpriv
  | anonymous flags zero => exact absurd trivial hpriv
  | fileMemory f shared => rfl
  | sharedAnonymous o => rfl
  | file f => rfl
  | empty => rfl

theorem Space.privateBytes_memory {d : PagePtr} (he : v.maps p a = some (.memory d false)) :
    v.privateBytes p a = some (v.pages d).bytes := by
  unfold Space.privateBytes
  rw [he]

theorem Space.privateBytes_anonymous {flags : PageFlags} {zero : Bool}
    (he : v.maps p a = some (.anonymous flags zero)) : v.privateBytes p a = some fun _ => 0 := by
  unfold Space.privateBytes
  rw [he]

/-- The slot a fault replaces, once it is replaced. -/
theorem Space.Replaced.self {e : MemoryEntry} {d : PagePtr} {D : PageInfo}
    (hr : Space.Replaced v p a e d D v') : v'.maps p a = some e := by
  rw [hr.maps, Maps.set_self]

/-- A slot that is not private memory, before and after. -/
theorem Space.Replaced.privateBytes_foreign {e e' : MemoryEntry} {d : PagePtr} {D : PageInfo}
    {q b : Nat} (hr : Space.Replaced v p a e' d D v') (he : v.maps p a = some e)
    (hpriv : ¬ e.Private) (hpriv' : ¬ e'.Private)
    (hd : v.maps q b = some (.memory d false) → D.bytes = (v.pages d).bytes) :
    v'.privateBytes q b = v.privateBytes q b := by
  by_cases hqb : (q, b) = (p, a)
  · rw [(Prod.mk.inj hqb).1, (Prod.mk.inj hqb).2, Space.privateBytes_none hr.self hpriv',
      Space.privateBytes_none he hpriv]
  · exact hr.privateBytes hqb hd

/-- The page of a file or of a shared mapping is not private memory. -/
theorem Space.Good.not_private {d : PagePtr} (h : v.Good) (hkind : (v.pages d).kind ≠ .priv) {q b : Nat} :
    v.maps q b ≠ some (.memory d false) := by
  intro he
  exact hkind (h.entries q b _ he).2

/-- **A page fault keeps private memory**, of every process it does not stop. -/
theorem Space.Fault.privateBytes {code frame : Nat} {mem : Nat → Bytes} {r : FaultResult}
    (hf : Space.Fault m v p a code frame mem r v') (h : v.Good) (hmem : v.Shows mem)
    (hframe : frame ≠ 0) (hframed : v.Framed) {q : Nat}
    (hq : r = .halted → q ≠ p) (b : Nat) : v'.privateBytes q b = v.privateBytes q b := by
  -- a new page is in no other slot
  have hnew : ∀ {q b : Nat}, v.maps q b ≠ some (.memory v.next false) := by
    intro q b he
    exact absurd (h.lt he rfl) (Nat.lt_irrefl _)
  have hslot : q ≠ p → (q, b) ≠ (p, a) := by
    intro hne heq
    exact hne (Prod.mk.inj heq).1
  cases hf with
  | nothing _ => rfl
  | failed hzero _ _ _ _ _ => exact absurd hzero hframe
  | anonymous he _ _ hr _ _ =>
      by_cases hqb : (q, b) = (p, a)
      · rw [(Prod.mk.inj hqb).1, (Prod.mk.inj hqb).2, Space.privateBytes_memory hr.self, hr.page,
          Space.privateBytes_anonymous he]
      · exact hr.privateBytes hqb (fun hx => absurd hx hnew)
  | anonymousHalt _ _ _ hr _ _ =>
      exact hr.privateBytes (hslot (hq rfl)) (fun hx => absurd hx hnew)
  | sharedFresh he _ _ _ hr _ _ _ _ =>
      exact hr.privateBytes_foreign he id id (fun hx => absurd hx hnew)
  | sharedFreshHalt _ _ _ _ hr _ _ _ _ =>
      exact hr.privateBytes (hslot (hq rfl)) (fun hx => absurd hx hnew)
  | sharedAgain he hpage _ _ hr _ _ =>
      apply hr.privateBytes_foreign he id id
      intro hx
      have hkind := (h.pagesOk.anons _ _ hpage).2.2
      exact absurd hx (h.not_private (by rw [hkind]; simp))
  | sharedAgainHalt _ _ _ _ hr _ _ => exact hr.privateBytes (hslot (hq rfl)) (fun _ => rfl)
  | cached he _ _ hr _ _ => exact hr.privateBytes_foreign he id id (fun _ => rfl)
  | read he _ _ _ hr _ _ _ _ =>
      exact hr.privateBytes_foreign he id id (fun hx => absurd hx hnew)
  | @copy d _ he _ _ _ hr _ _ =>
      by_cases hqb : (q, b) = (p, a)
      · -- the copy is read through the page table, which still shows the old page
        have htable : v.table p a = some (d, { (v.pages d).flags with present := true }) := by
          rw [h.agrees, he]
          rfl
        rw [(Prod.mk.inj hqb).1, (Prod.mk.inj hqb).2, Space.privateBytes_memory hr.self, hr.page,
          Space.privateBytes_memory he, hmem p a d _ htable (hframed d)]
      · exact hr.privateBytes hqb (fun hx => absurd hx hnew)
  | reenable he _ _ _ hr _ _ =>
      by_cases hqb : (q, b) = (p, a)
      · rw [(Prod.mk.inj hqb).1, (Prod.mk.inj hqb).2, Space.privateBytes_memory hr.self, hr.page,
          Space.privateBytes_memory he]
      · exact hr.privateBytes hqb (fun _ => rfl)
  | fileCopy he _ _ _ _ hr _ _ =>
      exact hr.privateBytes_foreign he id id (fun hx => absurd hx hnew)
  | @fileCopyHalt f shared w held _ _ _ _ _ hr _ =>
      apply Space.privateBytes_congr
      · show w.maps q b = v.maps q b
        rw [hr.maps]
      · intro d hd
        show (w.pages d).bytes = (v.pages d).bytes
        rw [hr.old d (Nat.ne_of_lt (h.lt hd rfl))]
  | steal he _ _ _ hr _ _ _ _ => exact hr.privateBytes_foreign he id id (fun _ => rfl)

/-- `fork` gives the child the private memory of its parent. -/
theorem Space.Forked.privateBytes (hf : Space.Forked v p child v') (q b : Nat) :
    v'.privateBytes q b = v.privateBytes (if q = child then p else q) b := by
  -- write protection does not touch private memory
  have hprotect : ∀ e : Option MemoryEntry, ∀ r, v.maps r b = e →
      (match e.map MemoryEntry.protect with
        | some (.memory d false) => some (v'.pages d).bytes
        | some (.anonymous _ _) => some fun _ => 0
        | _ => none) = v.privateBytes r b := by
    intro e r he
    unfold Space.privateBytes
    rw [he]
    cases e with
    | none => rfl
    | some e =>
        cases e with
        | memory d shared =>
            cases shared with
            | true => rfl
            | false => exact congrArg some (hf.pages d).2.2
        | fileMemory f shared => rfl
        | anonymous flags zero => rfl
        | sharedAnonymous o => rfl
        | file f => rfl
        | empty => rfl
  by_cases hc : q = child
  · rw [if_pos hc, ← hprotect _ p rfl]
    unfold Space.privateBytes
    rw [hf.maps, if_pos (Or.inl hc)]
  · rw [if_neg hc]
    by_cases hqp : q = p
    · rw [hqp, ← hprotect _ p rfl]
      unfold Space.privateBytes
      rw [hf.maps, if_pos (Or.inr rfl)]
    · apply Space.privateBytes_congr
      · rw [hf.maps, if_neg (by simp [hc, hqp])]
      · intro d _
        exact (hf.pages d).2.2

/-- **A user write changes private memory where it is made and nowhere else**,
because a page that may be written is mapped once. -/
theorem Space.Good.privateBytes_setByte (h : v.Good) {d : PagePtr} (hper : v.Permits p a d true)
    (o : Nat) (x : UInt8) (q b : Nat) :
    (v.setByte d o x).privateBytes q b
      = if p = q ∧ a = b then (v.privateBytes q b).map fun bytes => Function.update bytes o x
        else v.privateBytes q b := by
  obtain ⟨flags, htable, -, hw⟩ := hper
  obtain ⟨e, he, hd⟩ := h.table_held htable
  have hpages := Space.setByte_pages v d o x
  by_cases hkind : (v.pages d).kind = .priv
  · -- private memory: the flags in the page table are those of the page
    have hpriv := (h.entries p a e he).eq_private hkind hd
    rw [hpriv] at he
    have hflags : (v.pages d).flags.writable = true := by
      have hsame : v.table p a = some (d, { (v.pages d).flags with present := true }) := by
        rw [h.agrees, he]
        rfl
      rw [htable] at hsame
      have hfl := congrArg (fun te : PagePtr × PageFlags => te.2.writable) (Option.some.inj hsame)
      exact hfl.symm.trans (hw rfl)
    by_cases hqb : p = q ∧ a = b
    · rw [if_pos hqb, ← hqb.1, ← hqb.2]
      have he' : (v.setByte d o x).maps p a = some (.memory d false) := he
      rw [Space.privateBytes_memory he', Space.privateBytes_memory he, hpages, if_pos rfl]
      rfl
    · rw [if_neg hqb]
      apply Space.privateBytes_congr
      · rfl
      intro y hy
      rw [hpages, if_neg]
      intro hyd
      rw [hyd] at hy
      have heq := h.unique p a d he hflags q b _ hy rfl
      exact hqb ⟨(Prod.mk.inj heq).1.symm, (Prod.mk.inj heq).2.symm⟩
  · -- not private memory: no private page changes
    have hsame : (v.setByte d o x).privateBytes q b = v.privateBytes q b := by
      apply Space.privateBytes_congr
      · rfl
      intro y hy
      rw [hpages, if_neg]
      intro hyd
      rw [hyd] at hy
      exact h.not_private hkind hy
    rw [hsame]
    split
    · rename_i hqb
      rw [← hqb.1, ← hqb.2]
      have hnone : v.privateBytes p a = none := by
        apply Space.privateBytes_none he
        intro hprivate
        cases e with
        | memory y shared =>
            cases shared with
            | true => exact hprivate
            | false =>
                rw [← Option.some.inj hd] at hkind
                exact hkind (h.entries p a _ he).2
        | anonymous fl zero => cases hd
        | fileMemory f shared => exact hprivate
        | sharedAnonymous o => exact hprivate
        | file f => exact hprivate
        | empty => exact hprivate
      rw [hnone]
      rfl
    · rfl

/-- A range of pages gets one entry. -/
theorem Space.privateBytes_range {l : List Nat} {e : Option MemoryEntry}
    (hmaps : ∀ q b, v'.maps q b = if q = p ∧ b ∈ l then e else v.maps q b)
    (hpages : v'.pages = v.pages) {x : Option Bytes}
    (hx : ∀ (w : Space) q b, w.maps q b = e → w.privateBytes q b = x) (q b : Nat) :
    v'.privateBytes q b = if p = q ∧ b ∈ l then x else v.privateBytes q b := by
  by_cases hqb : p = q ∧ b ∈ l
  · rw [if_pos hqb]
    apply hx
    rw [hmaps, if_pos ⟨hqb.1.symm, hqb.2⟩]
  · rw [if_neg hqb]
    apply Space.privateBytes_congr
    · rw [hmaps, if_neg]
      intro hin
      exact hqb ⟨hin.1.symm, hin.2⟩
    · intro d _
      rw [hpages]

/-! ## §3. Every event. -/

def Status.Stuck : Status → Prop
  | .stuck _ => True
  | _ => False

/-- **Private memory is what eager copies would have made it.** -/
structure Eager (hist : List Event) (v : Space) : Prop where
  framed : v.Framed
  bytes : ∀ p a, ¬ (v.status p).Stuck → v.privateBytes p a = expected hist p a

/-- A process that is stuck stays so when one is stopped. -/
theorem Space.stuck_setStatus {w : Space} {p q : Nat} (h : (w.status q).Stuck) :
    ((w.setStatus p (.stuck none)).status q).Stuck := by
  show (Function.update w.status p (.stuck none) q).Stuck
  by_cases hqp : q = p
  · rw [hqp, Function.update_self]
    trivial
  · rw [Function.update_of_ne hqp]
    exact h

/-- A process that still runs after a fault ran before it, and was not stopped by it. -/
theorem Space.Fault.survives {a code frame : Nat} {mem : Nat → Bytes} {r : FaultResult} {w : Space}
    (hf : Space.Fault m v p a code frame mem r w) {q : Nat} (hw : ¬ (w.status q).Stuck) :
    (r = .halted → q ≠ p) ∧ ¬ (v.status q).Stuck := by
  cases hf.status with
  | inl hgo => exact ⟨fun hr => absurd hr hgo.1, hgo.2 ▸ hw⟩
  | inr hstop =>
      obtain ⟨held, hstatus⟩ := hstop
      have hqp : q ≠ p := by
        intro hqp
        apply hw
        rw [hstatus, hqp, Function.update_self]
        trivial
      rw [hstatus, Function.update_of_ne hqp] at hw
      exact ⟨fun _ => hqp, hw⟩

/-- A range of shared memory is no private memory. -/
theorem Space.AllocatedShared.privateBytes {l : List Nat} {flags : PageFlags}
    (h : Space.AllocatedShared v p l flags v') (q b : Nat) :
    v'.privateBytes q b = if p = q ∧ b ∈ l then none else v.privateBytes q b := by
  by_cases hqb : p = q ∧ b ∈ l
  · rw [if_pos hqb]
    obtain ⟨o, -, -, ho, -⟩ := h.inside b hqb.2
    rw [← hqb.1]
    exact Space.privateBytes_none ho id
  · rw [if_neg hqb]
    apply Space.privateBytes_congr
    · apply h.outside
      intro hin
      exact hqb ⟨hin.1.symm, hin.2⟩
    · intro d _
      rw [h.pages]

/-- **Every event keeps private memory as eager copies would have made it.** -/
theorem Eager.step {hist : List Event} {e : Event} (h : Eager hist v) (hv : v.Valid)
    (hst : Space.Step m v e v') (he : e.Allocated) : Eager (e :: hist) v' := by
  refine ⟨h.framed.step hv hst he, ?_⟩
  intro q b hq
  cases hst with
  | @nullPages p a n hp =>
      obtain ⟨hmaps, hun⟩ := v.nullPages_spec p a n
      rw [hun.status] at hq
      rw [Space.privateBytes_range hmaps hun.pages
        (fun w q b hw => Space.privateBytes_none hw id), h.bytes q b hq]
      rfl
  | @allocPages p a n flags prot hp =>
      by_cases hshared : flags.testBit 0 = true ∧ prot ≠ 0
      · have hal := v.allocShared_spec p a n hshared
        rw [hal.status] at hq
        show _ = if p = q ∧ b ∈ Kernel.pagesOf a n then
          if flags.testBit 0 = true ∧ prot ≠ 0 then none else some fun _ => 0 else expected hist q b
        rw [if_pos hshared, hal.privateBytes, h.bytes q b hq]
      · obtain ⟨hmaps, hun⟩ := v.allocPrivate_spec p a n hshared
        rw [hun.status] at hq
        rw [Space.privateBytes_range hmaps hun.pages
          (fun w q b hw => Space.privateBytes_anonymous hw), h.bytes q b hq]
        show _ = if p = q ∧ b ∈ Kernel.pagesOf a n then
          if flags.testBit 0 = true ∧ prot ≠ 0 then none else some fun _ => 0 else expected hist q b
        rw [if_neg hshared]
  | @filePages p a n file offset shared write execute hp =>
      obtain ⟨hmaps, hun⟩ := v.filePages_spec p a n file offset shared write execute
      rw [hun.status] at hq
      rw [Space.privateBytes_range hmaps hun.pages
        (fun w q b hw => Space.privateBytes_none hw id), h.bytes q b hq]
      rfl
  | @unmapPages p a n hp =>
      obtain ⟨hmaps, hun⟩ := v.unmapPages_spec p a n
      rw [hun.status] at hq
      rw [Space.privateBytes_range hmaps hun.pages (x := none)
        (fun w q b hw => by unfold Space.privateBytes; rw [hw]), h.bytes q b hq]
      rfl
  | @pageFault p addr code frame mem hp hmem =>
      obtain ⟨r, w, hf, heq⟩ := Space.pageFault_cases hv.toGood m p addr code frame mem
      rw [heq] at hq ⊢
      have hw : ¬ (w.status q).Stuck := by
        intro hstuck
        apply hq
        split
        · exact Space.stuck_setStatus hstuck
        · exact hstuck
      have hrun := hf.survives hw
      have hkeep := hf.privateBytes hv.toGood hmem he h.framed hrun.1 b
      rw [show expected (.pageFault p addr code frame :: hist) q b = expected hist q b from rfl,
        ← h.bytes q b hrun.2, ← hkeep]
      split <;> rfl
  | @fork p child keys hp hchild hnodup hkeys =>
      obtain ⟨-, hforked, -⟩ := Space.fork_spec hv.toGood hp hchild (hv.absent child hchild) hnodup
        hkeys
      rw [hforked.status] at hq
      rw [hforked.privateBytes]
      show _ = if q = child then expected hist p b else expected hist q b
      by_cases hc : q = child
      · rw [if_pos hc, if_pos hc]
        apply h.bytes p b
        rw [hp]
        exact id
      · rw [if_neg hc, if_neg hc]
        rw [Function.update_of_ne hc] at hq
        exact h.bytes q b hq
  | userRead _ _ _ => exact h.bytes q b hq
  | @userWrite p a o d x hp hper =>
      rw [hv.toGood.privateBytes_setByte hper, h.bytes q b hq]
      rfl

/-! ## §4. Runs. -/

theorem run_eager {s₀ : Kernel} (hinit : Initial s₀) {hist : List Event}
    (hrun : Run (Step m) s₀ hist s) (halloc : ∀ e ∈ hist, e.Allocated) :
    ∃ v, Sim s v 0 0 0 ∧ v.Valid ∧ Eager hist v := by
  obtain ⟨v, hsim, hv, hI⟩ := run_rule hinit
    (fun hist v => (∀ e ∈ hist, e.Allocated) → Eager hist v)
    (fun _ => ⟨fun _ => Nat.one_ne_zero, fun _ _ _ => rfl⟩)
    (by
      intro hist v e v' hv _ hI hst hall
      have hbefore := hI fun e' he' => hall e' (List.mem_cons_of_mem _ he')
      exact hbefore.step hv hst (hall e List.mem_cons_self))
    hrun
  exact ⟨v, hsim, hv, hI halloc⟩

/-- What is loaded from private memory. -/
theorem Sim.load_private (h : Sim s v 0 0 0) (hv : v.Good) (hframed : v.Framed) {bytes x : Bytes}
    (hpriv : v.privateBytes p a = some bytes) (hload : s.load p a = some x) : x = bytes := by
  have htable : ∃ te, v.table p a = some te ∧ x = s.mem (v.pages te.1).addr := by
    cases ht : v.table p a with
    | none =>
        rw [h.load_unmapped ht] at hload
        cases hload
    | some te =>
        rw [h.load_mapped ht] at hload
        exact ⟨te, rfl, (Option.some.inj hload).symm⟩
  obtain ⟨te, ht, hx⟩ := htable
  have hshows := h.shows hv p a te.1 te.2 ht (hframed te.1)
  obtain ⟨e, he, hd⟩ := hv.table_held ht
  unfold Space.privateBytes at hpriv
  rw [he] at hpriv
  cases e with
  | memory d shared =>
      cases shared with
      | true => cases hpriv
      | false =>
          have hdt : d = te.1 := Option.some.inj hd
          rw [hx, hshows, ← hdt]
          exact Option.some.inj hpriv
  | anonymous flags zero => cases hd
  | sharedAnonymous o => cases hd
  | fileMemory f shared => cases hpriv
  | file f => cases hd
  | empty => cases hd

/-- The pages of private memory are those the specification speaks of. -/
theorem Space.privateBytes_ne_none : v.privateBytes p a ≠ none
    ↔ ∃ e, v.maps p a = some e ∧ e.Private := by
  constructor
  · intro hsome
    cases he : v.maps p a with
    | none =>
        unfold Space.privateBytes at hsome
        rw [he] at hsome
        exact absurd rfl hsome
    | some e =>
        refine ⟨e, rfl, ?_⟩
        by_contra hpriv
        exact hsome (Space.privateBytes_none he hpriv)
  · intro hentry hnone
    obtain ⟨e, he, hpriv⟩ := hentry
    unfold Space.privateBytes at hnone
    rw [he] at hnone
    cases e with
    | memory d shared =>
        cases shared with
        | true => exact hpriv
        | false => cases hnone
    | anonymous flags zero => cases hnone
    | sharedAnonymous o => exact hpriv
    | fileMemory f shared => exact hpriv
    | file f => exact hpriv
    | empty => exact hpriv

/-- **Copy-on-write fork is an eager copy.**  In every run in which `palloc`
finds frames, for every running process:

  • the specification speaks of exactly the pages of private memory;
  • a read of one returns the expected byte, and so does the kernel's own;
  • a write of another process changes nothing there. -/
theorem fork_is_eager_copy {s₀ : Kernel} (hinit : Initial s₀) {hist : List Event}
    (hrun : Run (Step m) s₀ hist s) (halloc : ∀ e ∈ hist, e.Allocated) :
    (∀ p a, (s.procs p).status = .running →
      (expected hist p a ≠ none ↔ ∃ e, (s.procs p).memorymap a = some e ∧ e.Private))
    ∧ (∀ p a o b s' bytes, Step m s (.userRead p a o b) s' →
      expected hist p a = some bytes → b = bytes o)
    ∧ (∀ p a bytes x, (s.procs p).status = .running → expected hist p a = some bytes →
      s.load p a = some x → x = bytes)
    ∧ ∀ p a o b s' q c, Step m s (.userWrite p a o b) s' → q ≠ p →
      (s.procs q).status = .running → expected hist q c ≠ none → s'.load q c = s.load q c := by
  obtain ⟨v, hsim, hv, heager⟩ := run_eager hinit hrun halloc
  have hbytes : ∀ p a, (s.procs p).status = .running → v.privateBytes p a = expected hist p a := by
    intro p a hp
    apply heager.bytes
    rw [hsim.status, show s.status p = .running from hp]
    exact id
  have hload : ∀ p a bytes x, (s.procs p).status = .running → expected hist p a = some bytes →
      s.load p a = some x → x = bytes := by
    intro p a bytes x hp hexp hx
    rw [← hbytes p a hp] at hexp
    exact hsim.load_private hv.toGood heager.framed hexp hx
  refine ⟨?_, ?_, hload, ?_⟩
  · intro p a hp
    rw [← hbytes p a hp, Space.privateBytes_ne_none, hsim.maps]
    exact Iff.rfl
  · intro p a o b s' bytes hst hexp
    cases hst with
    | @userRead _ _ _ frame hp hper =>
        obtain ⟨flags, hpager, -, -⟩ := hper
        have hx : s.load p a = some (s.mem frame) := Kernel.load_mapped hpager
        rw [← hload p a bytes _ hp hexp hx]
  · intro p a o b s' q c hst hqp hq hexp
    -- the run goes on with the write, which the specification of `q` ignores
    have halloc' : ∀ e ∈ Event.userWrite p a o b :: hist, e.Allocated := by
      intro e he
      cases he with
      | head => trivial
      | tail _ he => exact halloc e he
    obtain ⟨v', hsim', hv', heager'⟩ := run_eager hinit (hrun.step hst) halloc'
    have hsame : expected (.userWrite p a o b :: hist) q c = expected hist q c := by
      show (if p = q ∧ a = c then _ else expected hist q c) = _
      rw [if_neg]
      intro heq
      exact hqp heq.1.symm
    have hprocs : s'.procs = s.procs := by
      cases hst with
      | userWrite _ _ => rfl
    obtain ⟨bytes, hexp⟩ := Option.ne_none_iff_exists'.mp hexp
    have hpriv' : v'.privateBytes q c = some bytes := by
      rw [heager'.bytes q c, hsame, hexp]
      rw [hsim'.status]
      show ¬ (s'.procs q).status.Stuck
      rw [hprocs, hq]
      exact id
    cases hpager : (s.procs q).pager c with
    | none =>
        have hpager' : (s'.procs q).pager c = none := by
          rw [hprocs, hpager]
        rw [Kernel.load_unmapped hpager, Kernel.load_unmapped hpager']
    | some pte =>
        have hpager' : (s'.procs q).pager c = some pte := by
          rw [hprocs, hpager]
        have hbefore := Kernel.load_mapped hpager
        have hafter := Kernel.load_mapped hpager'
        rw [hafter, hbefore, hload q c bytes _ hq hexp hbefore,
          hsim'.load_private hv'.toGood heager'.framed hpriv' hafter]

/-- Process 0 writes 42 to a page, forks, and writes 43. -/
def parentWrites : List Event :=
  [.userWrite 0 5 0 43, .pageFault 0 (5 * 2 ^ 12) 3 8, .fork 0 1 [5], .userWrite 0 5 0 42,
    .pageFault 0 (5 * 2 ^ 12) 2 7, .allocPages 0 5 1 2 3]

/-- The child can read, and it reads what was there when it was created. -/
theorem fork_is_eager_copy_parent_writes :
    (replayable .noFiles .boot (.userRead 1 5 0 42 :: parentWrites) = true)
      ∧ ∀ b s', Step .noFiles (replay .noFiles .boot parentWrites) (.userRead 1 5 0 b) s' →
        b = 42 := by
  have hrun : Run (Step .noFiles) .boot parentWrites (replay .noFiles .boot parentWrites) :=
    replay_run Kernel.boot_initial (by decide)
  have halloc : ∀ e ∈ parentWrites, e.Allocated := by decide
  refine ⟨by decide, ?_⟩
  intro b s' hst
  exact (fork_is_eager_copy Kernel.boot_initial hrun halloc).2.1 1 5 0 b s' _ hst rfl

end MierOS.Tasking
