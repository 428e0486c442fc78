/-
  MierOS.Tasking.SharedMemory
  **SHARED ANONYMOUS MEMORY.**

  `sharedOrigin hist p a` says which `alloc_pages` a shared page of a process
  comes from, through any number of forks.  Slots of one origin have one
  `SharedAnonymousPage` object (`Origins`), so those that are resolved show one
  frame.

  `handle_page_fault` clears the page after every resolve, also when another
  process resolved it before: `shared_memory_contents` says exactly which
  faults change what others see.
-/
import MierOS.Tasking.Replay

namespace MierOS.Tasking

open Memory.Virtual
open Lib (Run)

variable {s s' : Kernel} {v v' : Space} {p a q c : Nat} {m : Machine}

/-! ## §1. Who shares with whom. -/

/-- The event, by its place in the history, and the page that a shared page of
process `p` was mapped by. -/
def sharedOrigin : List Event → Nat → Nat → Option (Nat × Nat)
  | [], _, _ => none
  | .allocPages q b n flags prot :: hist, p, a =>
      if q = p ∧ a ∈ Kernel.pagesOf b n then
        if flags.testBit 0 ∧ prot ≠ 0 then some (hist.length, a) else none
      else sharedOrigin hist p a
  | .nullPages q b n :: hist, p, a =>
      if q = p ∧ a ∈ Kernel.pagesOf b n then none else sharedOrigin hist p a
  | .filePages q b n _ _ _ _ _ :: hist, p, a =>
      if q = p ∧ a ∈ Kernel.pagesOf b n then none else sharedOrigin hist p a
  | .unmapPages q b n :: hist, p, a =>
      if q = p ∧ a ∈ Kernel.pagesOf b n then none else sharedOrigin hist p a
  | .fork q child _ :: hist, p, a => sharedOrigin hist (if p = child then q else p) a
  | .userWrite _ _ _ _ :: hist, p, a => sharedOrigin hist p a
  | .userRead _ _ _ _ :: hist, p, a => sharedOrigin hist p a
  | .pageFault _ _ _ _ :: hist, p, a => sharedOrigin hist p a

/-- The shared anonymous page behind a slot. -/
def Space.object (v : Space) (p a : Nat) : Option AnonPtr :=
  match v.maps p a with
  | some (.sharedAnonymous o) => some o
  | some (.memory d true) =>
      match (v.pages d).kind with
      | .shared o => some o
      | _ => none
  | _ => none

/-- **Slots of one origin have one object.** -/
structure Origins (hist : List Event) (v : Space) : Prop where
  old : ∀ p a i, sharedOrigin hist p a = some i → i.1 < hist.length
  shared : ∀ p a, sharedOrigin hist p a ≠ none → v.object p a ≠ none
  same : ∀ p a q c, sharedOrigin hist p a ≠ none → sharedOrigin hist p a = sharedOrigin hist q c →
    v.object p a = v.object q c

/-! ## §2. What keeps objects. -/

theorem Space.object_congr (hmaps : v'.maps q c = v.maps q c)
    (hkind : ∀ d, v.maps q c = some (.memory d true) → (v'.pages d).kind = (v.pages d).kind) :
    v'.object q c = v.object q c := by
  unfold Space.object
  rw [hmaps]
  cases he : v.maps q c with
  | none => rfl
  | some e =>
      cases e with
      | memory d shared =>
          cases shared with
          | true =>
              dsimp only
              rw [hkind d he]
          | false => rfl
      | fileMemory f shared => rfl
      | anonymous flags zero => rfl
      | sharedAnonymous o => rfl
      | file f => rfl
      | empty => rfl

theorem Space.object_sharedAnonymous {o : AnonPtr} (he : v.maps p a = some (.sharedAnonymous o)) :
    v.object p a = some o := by
  unfold Space.object
  rw [he]

theorem Space.object_memory {d : PagePtr} {o : AnonPtr} (he : v.maps p a = some (.memory d true))
    (hkind : (v.pages d).kind = .shared o) : v.object p a = some o := by
  unfold Space.object
  rw [he]
  dsimp only
  rw [hkind]

/-- An entry that is neither shared anonymous nor a shared page. -/
theorem Space.object_none {e : Option MemoryEntry} (he : v.maps p a = e)
    (hanon : ∀ o, e ≠ some (.sharedAnonymous o)) (hmem : ∀ d, e ≠ some (.memory d true)) :
    v.object p a = none := by
  unfold Space.object
  rw [he]
  cases e with
  | none => rfl
  | some e =>
      cases e with
      | memory d shared =>
          cases shared with
          | true => exact absurd rfl (hmem d)
          | false => rfl
      | sharedAnonymous o => exact absurd rfl (hanon o)
      | fileMemory f shared => rfl
      | anonymous flags zero => rfl
      | file f => rfl
      | empty => rfl

/-- A slot gets another entry with the same object. -/
theorem Space.Replaced.object {e : MemoryEntry} {d : PagePtr} {D : PageInfo}
    (hr : Space.Replaced v p a e d D v') (hself : v'.object p a = v.object p a)
    (hkind : v.maps q c = some (.memory d true) → D.kind = (v.pages d).kind) :
    v'.object q c = v.object q c := by
  by_cases hqc : (q, c) = (p, a)
  · rw [(Prod.mk.inj hqc).1, (Prod.mk.inj hqc).2]
    exact hself
  · apply Space.object_congr
    · rw [hr.maps, Maps.set_of_ne _ _ hqc]
    · intro x hx
      by_cases hxd : x = d
      · rw [hxd, hr.page]
        rw [hxd] at hx
        exact hkind hx
      · rw [hr.old x hxd]

theorem Space.Replaced.entry {e : MemoryEntry} {d : PagePtr} {D : PageInfo}
    (hr : Space.Replaced v p a e d D v') : v'.maps p a = some e := by
  rw [hr.maps, Maps.set_self]

/-- A slot without an object, before and after. -/
theorem Space.Replaced.object_foreign {e e' : MemoryEntry} {d : PagePtr} {D : PageInfo}
    (hr : Space.Replaced v p a e' d D v') (he : v.maps p a = some e)
    (hanon : ∀ o, e ≠ .sharedAnonymous o) (hmem : ∀ d, e ≠ .memory d true)
    (hanon' : ∀ o, e' ≠ .sharedAnonymous o) (hmem' : ∀ d, e' ≠ .memory d true)
    (hkind : v.maps q c = some (.memory d true) → D.kind = (v.pages d).kind) :
    v'.object q c = v.object q c := by
  apply hr.object _ hkind
  rw [Space.object_none hr.entry (fun o ho => hanon' o (Option.some.inj ho))
      (fun x hx => hmem' x (Option.some.inj hx)),
    Space.object_none he (fun o ho => hanon o (Option.some.inj ho))
      (fun x hx => hmem x (Option.some.inj hx))]

/-- **A page fault keeps the object of every slot.** -/
theorem Space.Fault.object {code frame : Nat} {mem : Nat → Bytes} {r : FaultResult}
    (hf : Space.Fault m v p a code frame mem r v') (h : v.Good) (q c : Nat) :
    v'.object q c = v.object q c := by
  -- a new page is in no slot yet
  have hnew : ∀ {k : Kind}, v.maps q c = some (.memory v.next true) → k = (v.pages v.next).kind := by
    intro k he
    exact absurd (h.lt he rfl) (Nat.lt_irrefl _)
  have hfresh : ∀ {o : AnonPtr} {D : PageInfo} {w : Space},
      v.maps p a = some (.sharedAnonymous o) → D.kind = .shared o →
      Space.Replaced v p a (.memory v.next true) v.next D w → w.object q c = v.object q c := by
    intro o D w he hD hr
    apply hr.object _ hnew
    rw [Space.object_sharedAnonymous he]
    exact Space.object_memory hr.entry (by rw [hr.page, hD])
  have hagain : ∀ {o : AnonPtr} {d : PagePtr} {D : PageInfo} {w : Space},
      v.maps p a = some (.sharedAnonymous o) → (v.anons o).page = some d →
      Space.Replaced v p a (.memory d true) d D w → D.kind = (v.pages d).kind →
      w.object q c = v.object q c := by
    intro o d D w he hpage hr hD
    apply hr.object _ (fun _ => hD)
    rw [Space.object_sharedAnonymous he]
    exact Space.object_memory hr.entry (by rw [hr.page, hD, (h.pagesOk.anons o d hpage).2.2])
  cases hf with
  | nothing _ => rfl
  | @failed w _ hw hmaps _ _ hold =>
      apply Space.object_congr
      · rw [hmaps]
      · intro d hd
        rw [hold d (Nat.ne_of_lt (h.lt hd rfl))]
  | anonymous he _ _ hr _ _ =>
      exact hr.object_foreign he (by simp) (by simp) (by simp) (by simp) hnew
  | anonymousHalt he _ _ hr _ _ =>
      exact hr.object_foreign he (by simp) (by simp) (by simp) (by simp) hnew
  | sharedFresh he _ _ _ hr _ _ _ _ => exact hfresh he rfl hr
  | sharedFreshHalt he _ _ _ hr _ _ _ _ => exact hfresh he rfl (hr.setStatus p _)
  | sharedAgain he hpage _ _ hr _ _ => exact hagain he hpage hr rfl
  | sharedAgainHalt he hpage _ _ hr _ _ => exact hagain he hpage (hr.setStatus p _) rfl
  | cached he _ _ hr _ _ =>
      exact hr.object_foreign he (by simp) (by simp) (by simp) (by simp) (fun _ => rfl)
  | read he _ _ _ hr _ _ _ _ =>
      exact hr.object_foreign he (by simp) (by simp) (by simp) (by simp) hnew
  | copy he _ _ _ hr _ _ =>
      exact hr.object_foreign he (by simp) (by simp) (by simp) (by simp) hnew
  | reenable he _ _ _ hr _ _ =>
      exact hr.object_foreign he (by simp) (by simp) (by simp) (by simp) (fun _ => rfl)
  | fileCopy he _ _ _ _ hr _ _ =>
      exact hr.object_foreign he (by simp) (by simp) (by simp) (by simp) hnew
  | @fileCopyHalt f shared w held _ _ _ _ _ hr _ =>
      apply Space.object_congr
      · show w.maps q c = v.maps q c
        rw [hr.maps]
      · intro d hd
        show (w.pages d).kind = (v.pages d).kind
        rw [hr.old d (Nat.ne_of_lt (h.lt hd rfl))]
  | steal he _ _ _ hr _ _ _ _ =>
      exact hr.object_foreign he (by simp) (by simp) (by simp) (by simp) (fun _ => rfl)

theorem Space.Forked.object {child : Nat} (hf : Space.Forked v p child v') (q c : Nat) :
    v'.object q c = v.object (if q = child then p else q) c := by
  -- write protection keeps the object of an entry
  have hprotect : ∀ r, v'.maps q c = (v.maps r c).map MemoryEntry.protect →
      v'.object q c = v.object r c := by
    intro r hmaps
    unfold Space.object
    rw [hmaps]
    cases he : v.maps r c with
    | none => rfl
    | some e =>
        cases e with
        | memory d shared =>
            cases shared with
            | true =>
                show (match (v'.pages d).kind with | .shared o => some o | _ => none) = _
                rw [(hf.pages d).1]
            | false => rfl
        | fileMemory f shared => rfl
        | anonymous flags zero => rfl
        | sharedAnonymous o => rfl
        | file f => rfl
        | empty => rfl
  by_cases hc : q = child
  · rw [if_pos hc]
    apply hprotect
    rw [hf.maps, if_pos (Or.inl hc)]
  · rw [if_neg hc]
    by_cases hqp : q = p
    · rw [hqp]
      rw [hqp] at hprotect
      apply hprotect
      rw [hf.maps, if_pos (Or.inr rfl)]
    · apply Space.object_congr
      · rw [hf.maps, if_neg (by simp [hc, hqp])]
      · intro d _
        exact (hf.pages d).1

/-! ## §3. Origins over a run. -/

theorem Origins.keep {hist : List Event} {e : Event} (h : Origins hist v) {k : Nat → Nat → Nat}
    (horigin : ∀ p a, sharedOrigin (e :: hist) p a = none
      ∨ (sharedOrigin (e :: hist) p a = sharedOrigin hist (k p a) a
        ∧ v'.object p a = v.object (k p a) a)) : Origins (e :: hist) v' := by
  have hsome : ∀ p a, sharedOrigin (e :: hist) p a ≠ none →
      sharedOrigin (e :: hist) p a = sharedOrigin hist (k p a) a
        ∧ v'.object p a = v.object (k p a) a :=
    fun p a hne => (horigin p a).resolve_left hne
  constructor
  case old =>
    intro p a i hi
    rw [(hsome p a (by rw [hi]; simp)).1] at hi
    exact Nat.lt_succ_of_lt (h.old _ a i hi)
  case shared =>
    intro p a hne
    obtain ⟨ho, hobj⟩ := hsome p a hne
    rw [hobj]
    rw [ho] at hne
    exact h.shared _ a hne
  case same =>
    intro p a q c hne heq
    obtain ⟨ho, hobj⟩ := hsome p a hne
    obtain ⟨ho', hobj'⟩ := hsome q c (by rw [← heq]; exact hne)
    rw [hobj, hobj']
    rw [ho] at hne
    rw [ho, ho'] at heq
    exact h.same _ a _ c hne heq

/-- A range of pages is no longer shared. -/
theorem Origins.range {hist : List Event} {e : Event} (h : Origins hist v) {l : List Nat}
    (horigin : ∀ q c, sharedOrigin (e :: hist) q c
      = if p = q ∧ c ∈ l then none else sharedOrigin hist q c)
    (houtside : ∀ q c, ¬ (q = p ∧ c ∈ l) → v'.maps q c = v.maps q c)
    (hpages : v'.pages = v.pages) : Origins (e :: hist) v' := by
  apply h.keep (k := fun q _ => q)
  intro q c
  rw [horigin]
  by_cases hin : p = q ∧ c ∈ l
  · left
    rw [if_pos hin]
  · right
    rw [if_neg hin]
    refine ⟨rfl, Space.object_congr (houtside q c fun h => hin ⟨h.1.symm, h.2⟩) ?_⟩
    intro d _
    rw [hpages]

/-- A shared mapping is made: every page has an object of its own. -/
theorem Origins.allocShared {hist : List Event} {b n flags prot : Nat} (h : Origins hist v)
    (hshared : flags.testBit 0 = true ∧ prot ≠ 0) {fl : PageFlags}
    (hal : Space.AllocatedShared v p (Kernel.pagesOf b n) fl v') :
    Origins (.allocPages p b n flags prot :: hist) v' := by
  have horigin : ∀ q c, sharedOrigin (.allocPages p b n flags prot :: hist) q c
      = if p = q ∧ c ∈ Kernel.pagesOf b n then some (hist.length, c) else sharedOrigin hist q c := by
    intro q c
    show (if p = q ∧ c ∈ Kernel.pagesOf b n then
      if flags.testBit 0 = true ∧ prot ≠ 0 then some (hist.length, c) else none
        else sharedOrigin hist q c) = _
    rw [if_pos hshared]
  have hkeep : ∀ q c, ¬ (p = q ∧ c ∈ Kernel.pagesOf b n) → v'.object q c = v.object q c := by
    intro q c hout
    apply Space.object_congr (hal.outside q c fun h => hout ⟨h.1.symm, h.2⟩)
    intro d _
    rw [hal.pages]
  have hsome : ∀ q c, p = q ∧ c ∈ Kernel.pagesOf b n → v'.object q c ≠ none := by
    intro q c hin
    obtain ⟨o, -, -, ho, -⟩ := hal.inside c hin.2
    rw [← hin.1, Space.object_sharedAnonymous ho]
    simp
  -- an older origin has a smaller number
  have hfresh : ∀ q c x, sharedOrigin hist q c ≠ some (hist.length, x) := by
    intro q c x heq
    exact absurd (h.old q c _ heq) (Nat.lt_irrefl _)
  constructor
  case old =>
    intro q c i hi
    rw [horigin] at hi
    split at hi
    · rw [← Option.some.inj hi]
      exact Nat.lt_succ_self _
    · exact Nat.lt_succ_of_lt (h.old q c i hi)
  case shared =>
    intro q c hne
    by_cases hin : p = q ∧ c ∈ Kernel.pagesOf b n
    · exact hsome q c hin
    · rw [horigin, if_neg hin] at hne
      rw [hkeep q c hin]
      exact h.shared q c hne
  case same =>
    intro q c q' c' hne heq
    rw [horigin q c, horigin q' c'] at heq
    rw [horigin q c] at hne
    by_cases hin : p = q ∧ c ∈ Kernel.pagesOf b n
    · by_cases hin' : p = q' ∧ c' ∈ Kernel.pagesOf b n
      · rw [if_pos hin, if_pos hin'] at heq
        have hc := (Prod.mk.inj (Option.some.inj heq)).2
        rw [← hin.1, ← hin'.1, hc]
      · rw [if_pos hin, if_neg hin'] at heq
        exact absurd heq.symm (hfresh q' c' c)
    · by_cases hin' : p = q' ∧ c' ∈ Kernel.pagesOf b n
      · rw [if_neg hin, if_pos hin'] at heq
        exact absurd heq (hfresh q c c')
      · rw [if_neg hin, if_neg hin'] at heq
        rw [if_neg hin] at hne
        rw [hkeep q c hin, hkeep q' c' hin']
        exact h.same q c q' c' hne heq

theorem Origins.step {hist : List Event} {e : Event} (h : Origins hist v) (hv : v.Valid)
    (hst : Space.Step m v e v') : Origins (e :: hist) v' := by
  cases hst with
  | @nullPages p a n _ =>
      obtain ⟨hmaps, hun⟩ := v.nullPages_spec p a n
      exact h.range (fun _ _ => rfl) (fun q c hout => by rw [hmaps, if_neg hout]) hun.pages
  | @allocPages p a n flags prot _ =>
      by_cases hshared : flags.testBit 0 = true ∧ prot ≠ 0
      · exact h.allocShared hshared (v.allocShared_spec p a n hshared)
      · obtain ⟨hmaps, hun⟩ := v.allocPrivate_spec p a n hshared
        apply h.range _ (fun q c hout => by rw [hmaps, if_neg hout]) hun.pages
        intro q c
        show (if p = q ∧ c ∈ Kernel.pagesOf a n then
          if flags.testBit 0 = true ∧ prot ≠ 0 then some (hist.length, c) else none
            else sharedOrigin hist q c) = _
        rw [if_neg hshared]
  | @filePages p a n file offset shared write execute _ =>
      obtain ⟨hmaps, hun⟩ := v.filePages_spec p a n file offset shared write execute
      exact h.range (fun _ _ => rfl) (fun q c hout => by rw [hmaps, if_neg hout]) hun.pages
  | @unmapPages p a n _ =>
      obtain ⟨hmaps, hun⟩ := v.unmapPages_spec p a n
      exact h.range (fun _ _ => rfl) (fun q c hout => by rw [hmaps, if_neg hout]) hun.pages
  | @pageFault p addr code frame mem _ _ =>
      obtain ⟨r, w, hf, heq⟩ := Space.pageFault_cases hv.toGood m p addr code frame mem
      apply h.keep (k := fun q _ => q)
      intro q c
      refine Or.inr ⟨rfl, ?_⟩
      rw [← hf.object hv.toGood q c, heq]
      split <;> rfl
  | @fork p child keys hp hchild hnodup hkeys =>
      obtain ⟨-, hforked, -⟩ := Space.fork_spec hv.toGood hp hchild (hv.absent child hchild) hnodup
        hkeys
      apply h.keep (k := fun q _ => if q = child then p else q)
      intro q c
      exact Or.inr ⟨rfl, hforked.object q c⟩
  | userRead _ _ _ => exact h.keep (k := fun q _ => q) (fun _ _ => Or.inr ⟨rfl, rfl⟩)
  | @userWrite p a o d x _ _ =>
      apply h.keep (k := fun q _ => q)
      intro q c
      refine Or.inr ⟨rfl, Space.object_congr rfl ?_⟩
      intro y _
      rw [Space.setByte_pages]
      split <;> rfl

theorem run_origins {s₀ : Kernel} (hinit : Initial s₀) {hist : List Event}
    (hrun : Run (Step m) s₀ hist s) : ∃ v, Sim s v 0 0 0 ∧ v.Valid ∧ Origins hist v := by
  apply run_rule hinit Origins _ _ hrun
  · refine ⟨?_, fun _ _ hne => absurd rfl hne, fun _ _ _ _ hne => absurd rfl hne⟩
    intro p a i hi
    cases hi
  · intro hist v e v' hv _ h hst
    exact h.step hv hst

/-! ## §4. What a fault does to the contents. -/

/-- **A fault that clears a shared page in use**: the first touch of a shared
mapping whose page another process resolved before and that holds anything. -/
structure Kernel.Clears (m : Machine) (s : Kernel) (p addr : Nat) (d : PagePtr) : Prop where
  user : ¬ (addr ≥ kernelStart ∨ addr = 0)
  entry : ∃ o O, (s.procs p).memorymap (addr / 2 ^ 12) = some (.sharedAnonymous o)
    ∧ s.anons o = some O ∧ O.page = some d
  writes : (s.page d).flags.writable = true ∨ m.wp = false
  contents : s.mem (s.page d).addr ≠ fun _ => 0

/-- The same, of the address spaces. -/
structure Space.Clears (m : Machine) (v : Space) (p addr : Nat) (d : PagePtr) : Prop where
  user : ¬ (addr ≥ kernelStart ∨ addr = 0)
  entry : ∃ o, v.maps p (addr / 2 ^ 12) = some (.sharedAnonymous o) ∧ (v.anons o).page = some d
  writes : Space.Zeroes m (v.pages d).flags
  contents : (v.pages d).bytes ≠ fun _ => 0

/-- The shared page of a slot: alive, with a frame that holds its contents. -/
theorem Sim.shared_slot (h : Sim s v 0 0 0) (hv : v.Good) {d : PagePtr}
    (he : v.maps q c = some (.memory d true)) :
    (v.pages d).addr ≠ 0 ∧ (∃ D, s.pages d = some D) ∧ s.mem (v.pages d).addr = (v.pages d).bytes
      ∧ s.load q c = some (v.pages d).bytes := by
  have hok : d < v.next ∧ (v.pages d).addr ≠ 0 ∧ _ := hv.entries q c _ he
  have htable : v.table q c = some (d, { (v.pages d).flags with present := true }) := by
    rw [hv.agrees, he]
    rfl
  have hmem := h.shows hv q c d _ htable hok.2.1
  refine ⟨hok.2.1, h.slot_live zero_nonneg he rfl, hmem, ?_⟩
  rw [h.load_mapped htable, hmem]

/-- The kernel and the address spaces agree on what a fault clears. -/
theorem Sim.clears_iff (h : Sim s v 0 0 0) (hv : v.Good) {addr : Nat} {d : PagePtr}
    (he : v.maps q c = some (.memory d true)) : s.Clears m p addr d ↔ v.Clears m p addr d := by
  obtain ⟨-, hlive, hmem, -⟩ := h.shared_slot hv he
  obtain ⟨D, hD⟩ := hlive
  have hflags := h.flags_eq hD
  have haddr := h.addr_eq hD
  have hmaps : v.maps p (addr / 2 ^ 12) = (s.procs p).memorymap (addr / 2 ^ 12) := by
    rw [h.maps]
    rfl
  constructor
  · intro hc
    obtain ⟨o, O, hentry, hO, hpage⟩ := hc.entry
    refine ⟨hc.user, ⟨o, hmaps.trans hentry, ?_⟩, ?_, ?_⟩
    · rw [(h.anons o O hO).2.2, hpage]
    · rw [← hflags]
      exact hc.writes
    · rw [← hmem, ← haddr]
      exact hc.contents
  · intro hc
    obtain ⟨o, hentry, hpage⟩ := hc.entry
    have hsharer : s.maps p (addr / 2 ^ 12) = some (.sharedAnonymous o) := by
      rw [← h.maps]
      exact hentry
    obtain ⟨O, hO⟩ := h.anon_live (o := o) (by
      have hpos := MierOS.Lib.Refs.refs_pos h.accounted.sharersFinite
        (i := (p, addr / 2 ^ 12)) (a := o) (by
          show (s.maps p (addr / 2 ^ 12)).bind _ = some o
          rw [hsharer]
          rfl)
      have hzero : (0 : AnonPtr → Int) o = 0 := rfl
      omega)
    refine ⟨hc.user, ⟨o, O, hmaps.symm.trans hentry, hO, ?_⟩, ?_, ?_⟩
    · rw [← (h.anons o O hO).2.2, hpage]
    · rw [hflags]
      exact hc.writes
    · rw [haddr, hmem]
      exact hc.contents

/-- A replaced slot keeps the shared page of another, if it keeps the page. -/
theorem Space.Replaced.keeps_shared {e : MemoryEntry} {d x : PagePtr} {D : PageInfo}
    (hr : Space.Replaced v p a e x D v') (hqc : (q, c) ≠ (p, a))
    (he : v.maps q c = some (.memory d true)) (hD : d = x → D.bytes = (v.pages d).bytes) :
    v'.maps q c = some (.memory d true) ∧ (v'.pages d).bytes = (v.pages d).bytes := by
  constructor
  · rw [hr.maps, Maps.set_of_ne _ _ hqc, he]
  · by_cases hdx : d = x
    · rw [hdx, hr.page, hD hdx, hdx]
    · rw [hr.old d hdx]

/-- **A fault that clears nothing keeps every other slot of shared memory.** -/
theorem Space.Fault.keeps_shared {code frame : Nat} {mem : Nat → Bytes} {r : FaultResult}
    {d : PagePtr} (hf : Space.Fault m v p a code frame mem r v') (h : v.Good)
    (hqc : (q, c) ≠ (p, a)) (he : v.maps q c = some (.memory d true))
    (hclears : ∀ o, v.maps p a = some (.sharedAnonymous o) → (v.anons o).page = some d →
      Space.Zeroes m (v.pages d).flags → (v.pages d).bytes = fun _ => 0) :
    v'.maps q c = some (.memory d true) ∧ (v'.pages d).bytes = (v.pages d).bytes := by
  have hnew : ∀ {bytes : Bytes}, d = v.next → bytes = (v.pages d).bytes := by
    intro bytes hd
    exact absurd (h.lt he rfl) (by rw [hd]; exact Nat.lt_irrefl _)
  have hold : ∀ {x : PagePtr}, d = x → (v.pages x).bytes = (v.pages d).bytes := by
    intro x hd
    rw [hd]
  cases hf with
  | nothing _ => exact ⟨he, rfl⟩
  | failed _ _ hmaps _ _ hpages =>
      rw [hmaps, hpages d (Nat.ne_of_lt (h.lt he rfl))]
      exact ⟨he, rfl⟩
  | anonymous _ _ _ hr _ _ => exact hr.keeps_shared hqc he hnew
  | anonymousHalt _ _ _ hr _ _ => exact (hr.setStatus p _).keeps_shared hqc he hnew
  | sharedFresh _ _ _ _ hr _ _ _ _ => exact hr.keeps_shared hqc he hnew
  | sharedFreshHalt _ _ _ _ hr _ _ _ _ => exact (hr.setStatus p _).keeps_shared hqc he hnew
  | @sharedAgain o x w hentry hpage haddr hz hr _ _ =>
      apply hr.keeps_shared hqc he
      intro hdx
      rw [← hdx] at hpage hz
      rw [hclears o hentry hpage hz]
  | sharedAgainHalt _ _ _ _ hr _ _ => exact (hr.setStatus p _).keeps_shared hqc he hold
  | cached _ _ _ hr _ _ => exact hr.keeps_shared hqc he hold
  | read _ _ _ _ hr _ _ _ _ => exact hr.keeps_shared hqc he hnew
  | copy _ _ _ _ hr _ _ => exact hr.keeps_shared hqc he hnew
  | reenable _ _ _ _ hr _ _ => exact hr.keeps_shared hqc he hold
  | fileCopy _ _ _ _ _ hr _ _ => exact hr.keeps_shared hqc he hnew
  | @fileCopyHalt f shared w held _ _ _ _ _ hr _ =>
      show w.maps q c = _ ∧ (w.pages d).bytes = _
      rw [hr.maps, hr.old d (Nat.ne_of_lt (h.lt he rfl))]
      exact ⟨he, rfl⟩
  | steal _ _ _ _ hr _ _ _ _ => exact hr.keeps_shared hqc he hold

/-- A fault that clears a page leaves it with zeros. -/
theorem Space.Clears.pageFault {addr : Nat} {d : PagePtr} (hc : v.Clears m p addr d)
    (haddr : (v.pages d).addr ≠ 0) (hqc : (q, c) ≠ (p, addr / 2 ^ 12))
    (he : v.maps q c = some (.memory d true)) (code frame : Nat) (mem : Nat → Bytes) :
    (v.pageFault m p addr code frame mem).maps q c = some (.memory d true)
      ∧ ((v.pageFault m p addr code frame mem).pages d).bytes = fun _ => 0 := by
  obtain ⟨o, hentry, hpage⟩ := hc.entry
  have hnull : v.isNull (v.anons o).page ≠ true := by
    rw [hpage]
    intro hzero
    exact haddr (of_decide_eq_true hzero)
  have hfault : v.pageFault m p addr code frame mem
      = (v.mapPage p (addr / 2 ^ 12) d true).setBytes d fun _ => 0 := by
    have hresolved : v.handlePageFault m p addr code frame mem
        = v.anonymousFault m p (addr / 2 ^ 12) d true := by
      unfold Space.handlePageFault
      rw [if_neg hc.user]
      dsimp only
      rw [hentry]
      dsimp only
      unfold Space.resolveShared
      rw [if_neg hnull, hpage]
      rfl
    have hwrites : (v.pages d).flags.writable = true ∨ m.wp = false := hc.writes
    unfold Space.pageFault
    rw [hresolved, Space.sharedFault_split m v p _ d haddr, if_pos hwrites]
  have hr := Space.replaced_mapPage (v := v) (p := p) (a := addr / 2 ^ 12) (by
    intro x hx
    rw [hentry] at hx
    rw [← Option.some.inj hx]
    rfl) d true
  rw [hfault]
  constructor
  · show (v.mapPage p (addr / 2 ^ 12) d true).maps q c = _
    rw [hr.maps, Maps.set_of_ne _ _ hqc, he]
  · unfold Space.setBytes
    rw [Space.modifyPage_pages, if_pos rfl]

theorem Space.Fault.maps_of_ne {code frame : Nat} {mem : Nat → Bytes} {r : FaultResult}
    (hf : Space.Fault m v p a code frame mem r v') (hqc : (q, c) ≠ (p, a)) :
    v'.maps q c = v.maps q c := by
  have hslot : ∀ {e : MemoryEntry} {d : PagePtr} {D : PageInfo} {w : Space},
      Space.Replaced v p a e d D w → w.maps q c = v.maps q c := by
    intro e d D w hr
    rw [hr.maps, Maps.set_of_ne _ _ hqc]
  cases hf with
  | nothing _ => rfl
  | failed _ _ hmaps _ _ _ => rw [hmaps]
  | anonymous _ _ _ hr _ _ => exact hslot hr
  | anonymousHalt _ _ _ hr _ _ => exact hslot (hr.setStatus p _)
  | sharedFresh _ _ _ _ hr _ _ _ _ => exact hslot hr
  | sharedFreshHalt _ _ _ _ hr _ _ _ _ => exact hslot (hr.setStatus p _)
  | sharedAgain _ _ _ _ hr _ _ => exact hslot hr
  | sharedAgainHalt _ _ _ _ hr _ _ => exact hslot (hr.setStatus p _)
  | cached _ _ _ hr _ _ => exact hslot hr
  | read _ _ _ _ hr _ _ _ _ => exact hslot hr
  | copy _ _ _ _ hr _ _ => exact hslot hr
  | reenable _ _ _ _ hr _ _ => exact hslot hr
  | fileCopy _ _ _ _ _ hr _ _ => exact hslot hr
  | @fileCopyHalt f shared w held _ _ _ _ _ hr _ =>
      show w.maps q c = v.maps q c
      rw [hr.maps]
  | steal _ _ _ _ hr _ _ _ _ => exact hslot hr

/-- A slot with an object is resolved or not. -/
theorem Space.object_cases (hobj : v.object q c ≠ none) :
    (∃ o, v.maps q c = some (.sharedAnonymous o)) ∨ ∃ d, v.maps q c = some (.memory d true) := by
  by_contra hno
  rw [not_or] at hno
  apply hobj
  apply Space.object_none rfl
  · intro o ho
    exact hno.1 ⟨o, ho⟩
  · intro d hd
    exact hno.2 ⟨d, hd⟩

/-- A fault leaves the other slots as they are, also when the process is stopped. -/
theorem Space.pageFault_maps_of_ne {addr code frame : Nat} {mem : Nat → Bytes} (hv : v.Good)
    (hqc : (q, c) ≠ (p, addr / 2 ^ 12)) :
    (v.pageFault m p addr code frame mem).maps q c = v.maps q c := by
  obtain ⟨r, w, hf, heq⟩ := Space.pageFault_cases hv m p addr code frame mem
  rw [← hf.maps_of_ne hqc, heq]
  split
  · rfl
  · rfl

/-- Nothing is loaded from a shared mapping nobody touched here. -/
theorem Sim.load_unresolved (h : Sim s v 0 0 0) (hv : v.Good) {o : AnonPtr}
    (ho : v.maps q c = some (.sharedAnonymous o)) : s.load q c = none := by
  apply h.load_unmapped
  rw [hv.agrees, ho]
  rfl

/-- Slots of one origin that are resolved have one page. -/
theorem Origins.same_contents {hist : List Event} {x y : Bytes} (h : Origins hist v)
    (hsim : Sim s v 0 0 0) (hv : v.Valid) (hne : sharedOrigin hist p a ≠ none)
    (heq : sharedOrigin hist p a = sharedOrigin hist q c) (hx : s.load p a = some x)
    (hy : s.load q c = some y) : x = y := by
  have hobj := h.shared p a hne
  have hobj' := h.shared q c (by rw [← heq]; exact hne)
  have hsame := h.same p a q c hne heq
  cases Space.object_cases hobj with
  | inl hu =>
      obtain ⟨o, ho⟩ := hu
      rw [hsim.load_unresolved hv.toGood ho] at hx
      cases hx
  | inr hm =>
      cases Space.object_cases hobj' with
      | inl hu =>
          obtain ⟨o, ho⟩ := hu
          rw [hsim.load_unresolved hv.toGood ho] at hy
          cases hy
      | inr hm' =>
          -- one object has one page
          obtain ⟨d, hd⟩ := hm
          obtain ⟨d', hd'⟩ := hm'
          obtain ⟨-, -, o, -, hkind, hpage⟩ := hv.entries p a _ hd
          obtain ⟨-, -, o', -, hkind', hpage'⟩ := hv.entries q c _ hd'
          rw [Space.object_memory hd hkind, Space.object_memory hd' hkind'] at hsame
          rw [Option.some.inj hsame, hpage'] at hpage
          rw [(hsim.shared_slot hv.toGood hd).2.2.2] at hx
          rw [(hsim.shared_slot hv.toGood hd').2.2.2, Option.some.inj hpage] at hy
          rw [← Option.some.inj hx, ← Option.some.inj hy]

/-- **What a fault does to a resolved slot**: it shows what it showed, unless its
page is cleared. -/
theorem Sim.pageFault_shared {addr code frame : Nat} {mem : Nat → Bytes} {d : PagePtr}
    (h : Sim s v 0 0 0) (hv : v.Good) (h' : Sim s' (v.pageFault m p addr code frame mem) 0 0 0)
    (hv' : (v.pageFault m p addr code frame mem).Good) (hqc : (q, c) ≠ (p, addr / 2 ^ 12))
    (hd : v.maps q c = some (.memory d true)) :
    s'.load q c = s.load q c ↔ ¬ v.Clears m p addr d := by
  obtain ⟨haddr, -, -, hload⟩ := h.shared_slot hv hd
  constructor
  · intro hkeep hc
    obtain ⟨he', hzero⟩ := hc.pageFault haddr hqc hd code frame mem
    rw [(h'.shared_slot hv' he').2.2.2, hload, hzero] at hkeep
    exact hc.contents (Option.some.inj hkeep).symm
  · intro hno
    have he' : (v.pageFault m p addr code frame mem).maps q c = some (.memory d true)
        ∧ ((v.pageFault m p addr code frame mem).pages d).bytes = (v.pages d).bytes := by
      by_cases huser : addr ≥ kernelStart ∨ addr = 0
      · -- the handler refuses the address before it looks at the map
        unfold Space.pageFault Space.handlePageFault
        rw [if_pos huser]
        exact ⟨hd, rfl⟩
      · obtain ⟨r, w, hf, heq⟩ := Space.pageFault_cases hv m p addr code frame mem
        have hkeep := hf.keeps_shared hv hqc hd (by
          intro o hentry hpage hz
          by_contra hbytes
          exact hno ⟨huser, ⟨o, hentry, hpage⟩, hz, hbytes⟩)
        rw [heq]
        split
        · exact hkeep
        · exact hkeep
    rw [(h'.shared_slot hv' he'.1).2.2.2, hload, he'.2]

/-! ## §5. Every run. -/

/-- **Shared anonymous memory.**  In every reachable state:

  • slots of one origin that are resolved show the same contents;
  • a page fault changes what another slot of shared memory shows exactly if it
    clears its page. -/
theorem shared_memory_contents {s₀ : Kernel} (hinit : Initial s₀) {hist : List Event}
    (hrun : Run (Step m) s₀ hist s) :
    (∀ p a q c x y, sharedOrigin hist p a ≠ none → sharedOrigin hist p a = sharedOrigin hist q c →
      s.load p a = some x → s.load q c = some y → x = y)
    ∧ ∀ p addr code frame s', Step m s (.pageFault p addr code frame) s' →
      ∀ q c, sharedOrigin hist q c ≠ none → (q, c) ≠ (p, addr / 2 ^ 12) →
        (s'.load q c = s.load q c
          ↔ ¬ ∃ d, (s.procs q).memorymap c = some (.memory d true) ∧ s.Clears m p addr d) := by
  obtain ⟨v, hsim, hv, horigins⟩ := run_origins hinit hrun
  refine ⟨?_, ?_⟩
  · intro p a q c x y hne heq hx hy
    exact horigins.same_contents hsim hv hne heq hx hy
  · intro p addr code frame s' hst q c hne hqc
    obtain ⟨v', hst', hsim', hv'⟩ := hsim.step hv.toGood hst
    have hmemorymap : ∀ d, (s.procs q).memorymap c = some (.memory d true)
        ↔ v.maps q c = some (.memory d true) := by
      intro d
      rw [hsim.maps]
      exact Iff.rfl
    cases hst' with
    | @pageFault _ _ _ _ mem hp hmem =>
        cases Space.object_cases (horigins.shared q c hne) with
        | inl hu =>
            obtain ⟨o, ho⟩ := hu
            have ho' : (v.pageFault m p addr code frame mem).maps q c
                = some (.sharedAnonymous o) := by
              rw [Space.pageFault_maps_of_ne hv.toGood hqc, ho]
            rw [hsim.load_unresolved hv.toGood ho, hsim'.load_unresolved hv' ho']
            refine ⟨?_, fun _ => rfl⟩
            intro _ hclears
            obtain ⟨d, hd, -⟩ := hclears
            rw [hmemorymap, ho] at hd
            cases hd
        | inr hm =>
            obtain ⟨d, hd⟩ := hm
            have hiff : s.Clears m p addr d ↔ v.Clears m p addr d :=
              hsim.clears_iff hv.toGood hd
            rw [hsim.pageFault_shared hv.toGood hsim' hv' hqc hd, ← hiff]
            constructor
            · intro hno hclears
              obtain ⟨x, hx, hc⟩ := hclears
              rw [hmemorymap, hd] at hx
              have hxd := (MemoryEntry.memory.inj (Option.some.inj hx)).1
              rw [← hxd] at hc
              exact hno hc
            · intro hno hc
              exact hno ⟨d, (hmemorymap d).mpr hd, hc⟩

/-- A shared page is inherited by a child and written by the parent. -/
def parentWritesShared : List Event :=
  [.userWrite 0 5 0 42, .pageFault 0 (5 * 2 ^ 12) 2 7, .fork 0 1 [5], .allocPages 0 5 1 1 3]

/-- The child touches the page, and what the parent wrote is gone. -/
theorem second_touch_clears_shared_page :
    (replayable .noFiles .boot (.pageFault 1 (5 * 2 ^ 12) 0 8 :: parentWritesShared) = true)
      ∧ sharedOrigin parentWritesShared 0 5 = some (0, 5)
      ∧ sharedOrigin parentWritesShared 1 5 = some (0, 5)
      ∧ ((replay .noFiles .boot parentWritesShared).load 0 5).map (· 0) = some 42
      ∧ ((replay .noFiles .boot
        (.pageFault 1 (5 * 2 ^ 12) 0 8 :: parentWritesShared)).load 0 5).map (· 0) = some 0 := by
  refine ⟨by decide, by decide, by decide, by decide, by decide⟩

/-- Parent and child see the same bytes once both have touched the page. -/
theorem shared_memory_contents_two :
    ∃ x y, (replay .noFiles .boot
        (.pageFault 1 (5 * 2 ^ 12) 0 8 :: parentWritesShared)).load 0 5 = some x
      ∧ (replay .noFiles .boot
        (.pageFault 1 (5 * 2 ^ 12) 0 8 :: parentWritesShared)).load 1 5 = some y ∧ x = y := by
  have hrun : Run (Step .noFiles) .boot (.pageFault 1 (5 * 2 ^ 12) 0 8 :: parentWritesShared) _ :=
    replay_run Kernel.boot_initial (by decide)
  have hparent : ((replay .noFiles .boot
      (.pageFault 1 (5 * 2 ^ 12) 0 8 :: parentWritesShared)).load 0 5).isSome = true := by decide
  have hchild : ((replay .noFiles .boot
      (.pageFault 1 (5 * 2 ^ 12) 0 8 :: parentWritesShared)).load 1 5).isSome = true := by decide
  obtain ⟨x, hx⟩ := Option.isSome_iff_exists.mp hparent
  obtain ⟨y, hy⟩ := Option.isSome_iff_exists.mp hchild
  exact ⟨x, y, hx, hy, (shared_memory_contents Kernel.boot_initial hrun).1 0 5 1 5 x y (by decide)
    (by decide) hx hy⟩

end MierOS.Tasking
