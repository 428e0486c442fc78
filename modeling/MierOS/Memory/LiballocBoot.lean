/-
  MierOS.Memory.LiballocBoot
  **`malloc` OVER `initial_heap`**: `liballoc.c` on the local part of
  `liballoc_plugs.cpp`.

  The bitmap of the heap keeps the promises `malloc` relies on, and a page of it
  is marked exactly while some allocation keeps it.
-/
import MierOS.Memory.BootHeap
import MierOS.Memory.LiballocRun

namespace MierOS.Memory.Liballoc

open Lib Lib.FirstFit Lib.HeapCalls
open Memory.BootHeap (Heap InitialHeap InHeap heapPage heapPageSize heapSize HeapOk HintOk
  occupied)

/-! ## §1. The plugs. -/

/-- The part of `liballoc_alloc` and `liballoc_free` on `initial_heap`; a request that the
heap cannot serve counts as refused, where `liballoc_alloc` goes on to `Pager::kalloc`;
`BootHeap.World` has that. -/
def bootPlugs (ih : InitialHeap) : Plugs Heap where
  alloc h n :=
    match h.alloc n with
    | some (page, h') => (ih.addr + (page <<< 12), h')
    | none => (0, h)
  free h ptr n :=
    if ptr ≥ ih.addr ∧ ptr < ih.addr + heapSize then h.free ((ptr - ih.addr) >>> 12) n else h

/-- The heap as the kernel starts with it, apart from its pagers. -/
def session (h : Heap) (o : List (Nat × Nat)) : BootHeap.Session := ⟨⟨h, [], 0⟩, o⟩

/-- The runs of `o` are out, and no other page is marked. -/
structure Out (ih : InitialHeap) (h : Heap) (o : List (Nat × Nat)) : Prop where
  ok : HeapOk ih (session h o)
  inHeap : ∀ r ∈ o, InHeap ih r.1
  marked : ∀ p, p < heapPageSize → h.used p = true →
    ∃ r ∈ o, heapPage ih r.1 ≤ p ∧ p < heapPage ih r.1 + r.2

section

variable {ih : InitialHeap} {h h' : Heap} {o o' : List (Nat × Nat)} {a n p page : Nat}

theorem Out.perm (hout : Out ih h o) (hperm : o.Perm o') : Out ih h o' := by
  refine ⟨⟨hout.ok.hint, fun b hb => ?_, ?_⟩, fun r hr => ?_, fun p hp hused => ?_⟩
  · exact hout.ok.placed b (hperm.mem_iff.mpr hb)
  · exact (hperm.pairwise_iff fun h => BootHeap.Apart.symm h).mp hout.ok.apart
  · exact hout.inHeap r (hperm.mem_iff.mpr hr)
  · obtain ⟨r, hr, hin⟩ := hout.marked p hp hused
    exact ⟨r, hperm.mem_iff.mp hr, hin⟩

theorem Out.init (ih : InitialHeap) : Out ih Heap.init [] := by
  refine ⟨⟨fun p hp => ?_, fun b hb => ?_, .nil⟩, fun r hr => ?_, fun p _ hused => ?_⟩
  · exact absurd hp (Nat.not_lt_zero p)
  · exact absurd hb List.not_mem_nil
  · exact absurd hr List.not_mem_nil
  · exact absurd hused Bool.false_ne_true

/-- **A run of pages goes out.** -/
theorem Out.alloc (hout : Out ih h o) (hn : 1 ≤ n) (halloc : h.alloc n = some (page, h')) :
    Out ih h' ((ih.addr + (page <<< 12), n) :: o) := by
  obtain ⟨hfirst, rfl⟩ := BootHeap.alloc_cases hout.ok.hint hn halloc
  have hinside := BootHeap.FreeRun.inside hn hfirst.1
  obtain ⟨hin, hpage⟩ : InHeap ih (ih.addr + (page <<< 12))
      ∧ heapPage ih (ih.addr + (page <<< 12)) = page := BootHeap.heapPage_block hn hinside
  have hok : HeapOk ih (session (h.take page n) ((ih.addr + (page <<< 12), n) :: o)) :=
    hout.ok.allocHeap hn hfirst
  refine ⟨hok, fun r hr => ?_, fun p hp hused => ?_⟩
  · rcases List.mem_cons.mp hr with rfl | hr
    · exact hin
    · exact hout.inHeap r hr
  · rw [BootHeap.take_used] at hused
    by_cases hnew : page ≤ p ∧ p < page + n
    · refine ⟨_, List.mem_cons_self, ?_⟩
      show heapPage ih (ih.addr + (page <<< 12)) ≤ p ∧ p < heapPage ih (ih.addr + (page <<< 12)) + n
      rw [hpage]
      exact hnew
    · rw [if_neg hnew] at hused
      obtain ⟨r, hr, hcover⟩ := hout.marked p hp hused
      exact ⟨r, List.mem_cons_of_mem _ hr, hcover⟩

/-- **It comes back.** -/
theorem Out.free (hout : Out ih h ((a, n) :: o)) : Out ih ((bootPlugs ih).free h a n) o := by
  have hin : InHeap ih a := hout.inHeap _ List.mem_cons_self
  have hfree : (bootPlugs ih).free h a n = h.free (heapPage ih a) n := if_pos hin
  have hok : HeapOk ih (session (h.free (heapPage ih a) n) (((a, n) :: o).erase (a, n))) :=
    hout.ok.free List.mem_cons_self (if_pos hin)
  rw [List.erase_cons_head] at hok
  rw [hfree]
  refine ⟨hok, fun r hr => hout.inHeap r (List.mem_cons_of_mem _ hr), fun p hp hused => ?_⟩
  rw [BootHeap.free_used] at hused
  split at hused
  · exact absurd hused (by decide)
  · next hother =>
    obtain ⟨r, hr, hcover⟩ := hout.marked p hp hused
    rcases List.mem_cons.mp hr with rfl | hr
    · exact absurd hcover hother
    · exact ⟨r, hr, hcover⟩

theorem Out.run (hout : Out ih h o) {r : Nat × Nat} (hr : r ∈ o) :
    r.1 = ih.addr + heapPage ih r.1 * 4096 ∧ heapPage ih r.1 + r.2 ≤ heapPageSize
      ∧ ∀ i, i < r.2 → h.used (heapPage ih r.1 + i) = true := by
  have hin := hout.inHeap r hr
  have hplaced := hout.ok.placed r hr
  exact ⟨hplaced.aligned hin, hplaced.inside hin, hplaced.used hin⟩

theorem heap_below (ih : InitialHeap) : ih.addr + heapSize ≤ 0x10000000000000000 :=
  Nat.le_trans ih.below (by decide)

end

/-- **The heap keeps the promises.** -/
def bootLawful (ih : InitialHeap) : Lawful (bootPlugs ih) where
  Holds := Out ih
  perm _ _ _ hout hperm := hout.perm hperm
  alloc := by
    intro h o n a h' hout hn halloc ha
    cases hserved : h.alloc n with
    | none =>
        have hnull : (bootPlugs ih).alloc h n = (0, h) := by simp only [bootPlugs, hserved]
        rw [hnull] at halloc
        exact absurd (Prod.mk.inj halloc).1.symm ha
    | some found =>
        obtain ⟨page, h₁⟩ := found
        have hfound : (bootPlugs ih).alloc h n = (ih.addr + (page <<< 12), h₁) := by
          simp only [bootPlugs, hserved]
        rw [hfound] at halloc
        obtain ⟨rfl, rfl⟩ := Prod.mk.inj halloc
        have hout' := hout.alloc hn hserved
        obtain ⟨haddr, hinside, -⟩ := hout'.run List.mem_cons_self
        have hbelow := heap_below ih
        refine ⟨hout', ?_, fun r hr => ?_⟩
        · unfold heapPageSize heapSize at *
          unfold pageSize
          dsimp only at *
          omega
        · have hapart := (List.pairwise_cons.mp hout'.ok.apart).1 r hr
            (hout'.inHeap _ List.mem_cons_self) (hout.inHeap r hr)
          exact hapart.symm
  refuse := by
    intro h o n h' hout hn halloc
    cases hserved : h.alloc n with
    | none =>
        have hnull : (bootPlugs ih).alloc h n = (0, h) := by simp only [bootPlugs, hserved]
        rw [hnull] at halloc
        exact (Prod.mk.inj halloc).2 ▸ hout
    | some found =>
        obtain ⟨page, h₁⟩ := found
        have hfound : (bootPlugs ih).alloc h n = (ih.addr + (page <<< 12), h₁) := by
          simp only [bootPlugs, hserved]
        rw [hfound] at halloc
        have habove := ih.above
        have hnull := (Prod.mk.inj halloc).1
        exact absurd (show 0 < ih.addr from Nat.lt_of_lt_of_le (by decide) habove) (by omega)
  free _ _ _ _ hout := hout.free

/-! ## §2. The system. -/

/-- A new allocation is held, with no byte known. -/
theorem ledger_malloc {n p : Nat} (hist : List Call) (hp : p ≠ 0) :
    ledger (.malloc n p :: hist) p = some (List.replicate n none) := by
  show Ledger.answered (ledger hist) p _ p = _
  unfold Ledger.answered
  rw [if_neg hp]
  exact put_same

theorem first_malloc : ∃ p s, p ≠ 0 ∧ ledger [.malloc 24 p] p = some (List.replicate 24 none)
    ∧ Session (bootPlugs BootHeap.lowHeap) (State.init (fun _ => 0) Heap.init) [.malloc 24 p] s := by
  have hs := Sound.init (L := bootLawful BootHeap.lowHeap) (m := fun _ => 0)
    (Out.init BootHeap.lowHeap)
  obtain ⟨fuel, p, s, -, hmalloc, -, -, hiff⟩ := hs.answer (show 24 ≤ maxRequest by decide)
  have hp : p ≠ 0 := by
    intro hzero
    have hnull := (hiff.mp hzero).2
    have hserved : ((bootPlugs BootHeap.lowHeap).alloc Heap.init 16).1 ≠ 0 := by decide
    exact hserved hnull
  exact ⟨p, s, hp, ledger_malloc [] hp,
    GuardedRun.init.step (show 24 ≤ maxRequest by decide) (.malloc hmalloc)⟩

/-- Two allocations, a write into the first, and the second freed; most recent first. -/
def fewCalls (p q : Nat) : List Call := [.free q, .malloc 100 q, .write p 5 7, .malloc 24 p]

theorem ledger_fewCalls {p q : Nat} (hp : p ≠ 0) (hq : q ≠ 0) (hne : q ≠ p) :
    ledger (fewCalls p q)
      = fun x => if x = p then some ((List.replicate 24 none).set 5 (some 7)) else none := by
  funext x
  simp only [fewCalls, ledger, apply, Ledger.answered, if_neg hp, if_neg hq, put_same,
    Option.getD_some]
  unfold Ledger.drop Ledger.put Ledger.empty
  by_cases hxq : x = q
  · rw [if_pos hxq, if_neg (hxq ▸ hne)]
  · by_cases hxp : x = p
    · simp only [if_neg hxq, if_pos hxp]
    · simp only [if_neg hxq, if_neg hxp]

theorem few_calls : ∃ p q s, p ≠ 0 ∧ q ≠ 0 ∧ q ≠ p
    ∧ Session (bootPlugs BootHeap.lowHeap) (State.init (fun _ => 0) Heap.init) (fewCalls p q)
      s := by
  have hserved : (((State.init (fun _ => 0) Heap.init).malloc (bootPlugs BootHeap.lowHeap) 10
      24).bind fun r => (State.malloc (bootPlugs BootHeap.lowHeap) 10
        { r.2 with mem := fun x => if x = r.1 + 5 then 7 else r.2.mem x } 100).map fun r' =>
          decide (r.1 ≠ 0 ∧ r'.1 ≠ 0 ∧ r'.1 ≠ r.1)) = some true := by decide +kernel
  obtain ⟨⟨p, s₁⟩, h₁, hsecond⟩ := Option.bind_eq_some_iff.mp hserved
  obtain ⟨⟨q, s₂⟩, h₂, hanswers⟩ := Option.map_eq_some_iff.mp hsecond
  obtain ⟨hp, hq, hne⟩ := of_decide_eq_true hanswers
  have hheld : (ledger [.malloc 100 q, .write p 5 7, .malloc 24 p] q).isSome = true := by
    rw [ledger_malloc _ hq]
    rfl
  refine ⟨p, q, s₂.free (bootPlugs BootHeap.lowHeap) q, hp, hq, hne, ?_⟩
  exact (((GuardedRun.init.step (show 24 ≤ maxRequest by decide) (.malloc h₁)).step
    ⟨_, ledger_malloc [] hp, by decide⟩ .write).step (show 100 ≤ maxRequest by decide) (.malloc h₂)).step
      (Or.inr hheld) .free

section System

variable {W : Type} {P : Plugs W} {L : Lawful P} {m : FlatMemory} {w : W} {hist : List Call}
  {s : State W}

/-- **What the callers hold is theirs**: after any calls the bytes they know are in memory,
no two allocations overlap, all lie in pages from `liballoc_alloc`, and nothing was ever
answered that was still held. -/
theorem callers_keep_their_bytes (hw : L.Holds w []) (hrun : Session P (State.init m w) hist s) :
    Agrees s.mem (ledger hist)
      ∧ (∀ p bs q cs, ledger hist p = some bs → ledger hist q = some cs → q ≠ p →
        p + bs.length + 56 ≤ q ∨ q + cs.length + 56 ≤ p)
      ∧ (∃ o, L.Holds s.world o ∧ ∀ p bs, ledger hist p = some bs → p ≠ 0 ∧ p % 16 = 0
        ∧ ∃ r ∈ o, r.1 + 96 ≤ p ∧ p + bs.length ≤ r.1 + r.2 * pageSize)
      ∧ ∀ newer c older, hist = newer ++ c :: older → Fresh (ledger older) c := by
  obtain ⟨h, hs⟩ := Sound.run hw hrun
  refine ⟨hs.agrees, fun p bs q cs hp hq hne => hs.apart hp hq hne,
    ⟨runsOf h, hs.owned, fun p bs hp => hs.place hp⟩, ?_⟩
  intro newer c older heq
  -- at the call the invariant held
  induction newer generalizing hist s h with
  | nil =>
      subst heq
      cases hrun with
      | step hbefore hc hstep =>
          obtain ⟨h', hs'⟩ := Sound.run hw hbefore
          exact (hs'.step hc hstep).1
  | cons d newer ih =>
      subst heq
      cases hrun with
      | step hbefore _ _ =>
          obtain ⟨h', hs'⟩ := Sound.run hw hbefore
          exact ih hbefore h' hs' rfl

/-- The byte that was written is there behind the other calls. -/
theorem callers_keep_their_bytes_few :
    ∃ (p q : Nat) (s : State Heap),
      Session (bootPlugs BootHeap.lowHeap) (State.init (fun _ => 0) Heap.init) (fewCalls p q) s
        ∧ s.mem (p + 5) = 7
        ∧ ∃ o, Out BootHeap.lowHeap s.world o ∧ p ≠ 0 ∧ p % 16 = 0
          ∧ ∃ r ∈ o, r.1 + 96 ≤ p ∧ p + 24 ≤ r.1 + r.2 * pageSize := by
  obtain ⟨p, q, s, hp, hq, hne, hrun⟩ := few_calls
  have hbytes : ledger (fewCalls p q) p = some ((List.replicate 24 none).set 5 (some 7)) := by
    rw [ledger_fewCalls hp hq hne]
    exact if_pos rfl
  obtain ⟨hagrees, -, ⟨o, ho, hplace⟩, -⟩ :=
    callers_keep_their_bytes (L := bootLawful BootHeap.lowHeap) (Out.init BootHeap.lowHeap) hrun
  exact ⟨p, q, s, hrun, hagrees p _ 5 7 hbytes rfl, o, ho, hplace p _ hbytes⟩

/-- **Pages go back**: `liballoc` keeps only pages that an allocation lies in, counts
exactly these, and with nothing held it is as before the first call. -/
theorem pages_go_back (hw : L.Holds w []) (hrun : Session P (State.init m w) hist s) :
    ∃ o, L.Holds s.world o
      ∧ (∀ r ∈ o, ∃ p bs, ledger hist p = some bs ∧ r.1 ≤ p ∧ p + bs.length ≤ r.1 + r.2 * pageSize)
      ∧ s.allocated = (o.map fun r => r.2 * pageSize).sum % 0x10000000000000000
      ∧ ((∀ p, ledger hist p = none) →
        o = [] ∧ s.memRoot = 0 ∧ s.bestBet = 0 ∧ s.allocated = 0 ∧ s.inuse = 0) := by
  obtain ⟨h, hs⟩ := Sound.run hw hrun
  have hr := hs.represents
  refine ⟨runsOf h, hs.owned, fun r hrmem => hs.keeper hrmem, ?_, ?_⟩
  · rw [hr.allocated]
    unfold runsOf
    rw [List.map_map]
    rfl
  · intro hnone
    have hnil : h = [] := by
      rcases h with _ | ⟨c, h⟩
      · rfl
      · obtain ⟨p, bs, hbs, -⟩ := hs.keeper (r := (c.base, c.pages)) List.mem_cons_self
        rw [hnone] at hbs
        exact absurd hbs (by simp)
    subst hnil
    have hroot : s.memRoot = 0 := hr.root
    have hbet : s.bestBet = 0 := by
      rcases hr.bestBet with hbet | hbet
      · exact hbet
      · exact absurd hbet List.not_mem_nil
    exact ⟨rfl, hroot, hbet, hr.allocated, hr.inuse⟩

/-- With the first of two allocations left its pages are kept, and without it none. -/
theorem pages_go_back_few :
    ∃ (p q : Nat) (s s' : State Heap),
      Session (bootPlugs BootHeap.lowHeap) (State.init (fun _ => 0) Heap.init) (fewCalls p q) s
        ∧ (∃ o, Out BootHeap.lowHeap s.world o
          ∧ s.allocated = (o.map fun r => r.2 * pageSize).sum % 0x10000000000000000)
        ∧ s' = s.free (bootPlugs BootHeap.lowHeap) p
        ∧ Out BootHeap.lowHeap s'.world [] ∧ s'.allocated = 0 ∧ s'.inuse = 0 := by
  obtain ⟨p, q, s, hp, hq, hne, hrun⟩ := few_calls
  have hledger := ledger_fewCalls hp hq hne
  have hheld : Allowed maxRequest maxZeroed (ledger (fewCalls p q)) (.free p) := by
    refine Or.inr ?_
    rw [hledger]
    simp only [if_true, Option.isSome_some]
  have hrun' := hrun.step hheld .free
  have hnone : ∀ x, ledger (.free p :: fewCalls p q) x = none := by
    intro x
    show Ledger.drop (ledger (fewCalls p q)) p x = none
    unfold Ledger.drop
    rw [hledger]
    split <;> simp [*]
  obtain ⟨o, ho, -, hcount, -⟩ :=
    pages_go_back (L := bootLawful BootHeap.lowHeap) (Out.init BootHeap.lowHeap) hrun
  obtain ⟨o', ho', -, -, hempty⟩ :=
    pages_go_back (L := bootLawful BootHeap.lowHeap) (Out.init BootHeap.lowHeap) hrun'
  obtain ⟨rfl, -, -, hallocated, hinuse⟩ := hempty hnone
  exact ⟨p, q, s, _, hrun, ⟨o, ho, hcount⟩, rfl, ho', hallocated, hinuse⟩

/-- **`malloc` ends, and looks everywhere before it asks for pages**: after any calls a
request is answered, at the lowest gap of a chunk that has one, else in new pages, and with
null only if there is neither. -/
theorem malloc_answers (hw : L.Holds w []) (hrun : Session P (State.init m w) hist s) :
    ∃ h, Represents s h ∧ L.Holds s.world (runsOf h) ∧ ∀ size, size ≤ maxRequest →
      ∃ fuel p s' h', s.malloc P fuel size = some (p, s')
        ∧ Allocates P s.world h size p s'.world h' ∧ Represents s' h'
        ∧ (p = 0 ↔ (∀ d ∈ h, ¬ d.HasFit (size + 32))
          ∧ (P.alloc s.world (State.pagesFor (size + 32))).1 = 0) := by
  obtain ⟨h, hs⟩ := Sound.run hw hrun
  exact ⟨h, hs.represents, hs.owned, fun size hsize => hs.answer hsize⟩

theorem malloc_answers_second :
    ∃ (p : Nat) (s : State Heap), ledger [.malloc 24 p] p = some (List.replicate 24 none)
      ∧ ∃ fuel q s', s.malloc (bootPlugs BootHeap.lowHeap) fuel 100 = some (q, s') := by
  obtain ⟨p, s, -, hp, hrun⟩ := first_malloc
  obtain ⟨h, -, -, hanswer⟩ :=
    malloc_answers (L := bootLawful BootHeap.lowHeap) (Out.init BootHeap.lowHeap) hrun
  obtain ⟨fuel, q, s', -, hmalloc, -⟩ := hanswer 100 (by decide)
  exact ⟨p, s, hp, fuel, q, s', hmalloc⟩

/-- **Where `calloc` and `realloc` fault**: they do not look at what `malloc` answered, and
write through a null unless there is nothing to write. -/
theorem calloc_realloc_return_iff (hw : L.Holds w []) (hrun : Session P (State.init m w) hist s) :
    (∀ nobj size, nobj * size ≤ maxZeroed →
      ((∃ p s', Step P s (.calloc nobj size p) s')
        ↔ nobj * size = 0 ∨ ∃ p s', p ≠ 0 ∧ Step P s (.malloc (nobj * size) p) s'))
      ∧ ∀ ptr size bs, size ≤ maxRequest → ledger hist ptr = some bs →
        ((∃ q s', Step P s (.realloc ptr size q) s')
          ↔ size ≤ bs.length ∨ bs.length = 0 ∨ ∃ q s', q ≠ 0 ∧ Step P s (.malloc size q) s') := by
  obtain ⟨h, hs⟩ := Sound.run hw hrun
  exact ⟨fun nobj size hn => hs.calloc_iff hn, fun ptr size bs hsize hbs => hs.realloc_iff hsize hbs⟩

theorem calloc_realloc_return_iff_shrink :
    ∃ (p : Nat) (s : State Heap), ledger [.malloc 24 p] p = some (List.replicate 24 none)
      ∧ ∃ q s', Step (bootPlugs BootHeap.lowHeap) s (.realloc p 8 q) s' := by
  obtain ⟨p, s, -, hp, hrun⟩ := first_malloc
  obtain ⟨-, hrealloc⟩ :=
    calloc_realloc_return_iff (L := bootLawful BootHeap.lowHeap) (Out.init BootHeap.lowHeap) hrun
  exact ⟨p, s, hp, (hrealloc p 8 _ (by decide) hp).mpr (Or.inl (by decide))⟩

end System

/-- **THE PAGES OF `initial_heap` UNDER `malloc`.**  After any calls of the kernel every byte
that is held lies on a marked page, every marked page belongs to a run of marked pages with
an allocation in it, and null is answered only without a run of free pages. This is
the heap alone: what its bitmap cannot serve is refused here, where `liballoc_alloc` goes on
to `Pager::kalloc`. -/
theorem initial_heap_under_malloc (ih : InitialHeap) (m : FlatMemory) {hist : List Call}
    {s : State Heap} (hrun : Session (bootPlugs ih) (State.init m Heap.init) hist s) :
    (∀ p bs i, ledger hist p = some bs → i < bs.length →
      ih.addr ≤ p + i ∧ (p + i - ih.addr) / 4096 < heapPageSize
        ∧ s.world.used ((p + i - ih.addr) / 4096) = true)
      ∧ (∀ page, page < heapPageSize → s.world.used page = true →
        ∃ first n p bs, first ≤ page ∧ page < first + n ∧ first + n ≤ heapPageSize
          ∧ (∀ i, i < n → s.world.used (first + i) = true) ∧ ledger hist p = some bs
          ∧ ih.addr + first * 4096 ≤ p ∧ p + bs.length ≤ ih.addr + (first + n) * 4096)
      ∧ ((∀ p, ledger hist p = none) → ∀ page, page < heapPageSize → s.world.used page = false)
      ∧ ∀ size s', size ≤ maxRequest → Step (bootPlugs ih) s (.malloc size 0) s' →
        ¬ ∃ b, FreeRun (occupied s.world) (State.pagesFor (size + 32)) b := by
  obtain ⟨h, hs⟩ := Sound.run (L := bootLawful ih) (Out.init ih) hrun
  have hout : Out ih s.world (runsOf h) := hs.owned
  have hcover : ∀ page, page < heapPageSize → s.world.used page = true →
      ∃ r ∈ runsOf h, heapPage ih r.1 ≤ page ∧ page < heapPage ih r.1 + r.2 :=
    fun page hpage hused => hout.marked page hpage hused
  refine ⟨fun p bs i hp hi => ?_, fun page hpage hused => ?_, fun hnone page hpage => ?_, ?_⟩
  · obtain ⟨-, -, r, hr, hlo, hhi⟩ := hs.place hp
    obtain ⟨haddr, hinside, hmarked⟩ := hout.run hr
    unfold pageSize at hhi
    have hpage : (p + i - ih.addr) / 4096 = heapPage ih r.1 + ((p + i - ih.addr) / 4096
        - heapPage ih r.1) := by omega
    refine ⟨by omega, by omega, ?_⟩
    rw [hpage]
    exact hmarked _ (by omega)
  · obtain ⟨r, hr, hlo, hhi⟩ := hcover page hpage hused
    obtain ⟨haddr, hinside, hmarked⟩ := hout.run hr
    obtain ⟨p, bs, hp, hbelow, habove⟩ := hs.keeper hr
    unfold pageSize at habove
    exact ⟨heapPage ih r.1, r.2, p, bs, hlo, hhi, hinside, hmarked, hp, by omega, by omega⟩
  · cases hused : s.world.used page with
    | false => rfl
    | true =>
        obtain ⟨r, hr, -⟩ := hcover page hpage hused
        obtain ⟨p, bs, hp, -⟩ := hs.keeper hr
        rw [hnone] at hp
        exact absurd hp (by simp)
  · rintro size s' hsize hstep
    obtain ⟨fuel, p, t, -, hmalloc, -, -, hiff⟩ := hs.answer hsize
    cases hstep with
    | malloc hnull =>
        obtain ⟨rfl, -⟩ := Prod.mk.inj (malloc_unique hnull hmalloc)
        have hrefused := (hiff.mp rfl).2
        have hn : 1 ≤ State.pagesFor (size + 32) :=
          Nat.le_trans (by decide) (pagesFor_bounds (Nat.add_le_add_right hsize 32)).1
        rintro ⟨b, hfree⟩
        -- a run of free pages is found, and its address is not null
        obtain ⟨a, hfirst⟩ := exists_isFirstFit hfree
        have hserved := BootHeap.alloc_eq_some hout.ok.hint hn hfirst
        have habove : 0 < ih.addr := Nat.lt_of_lt_of_le (by decide) ih.above
        have hanswer : ((bootPlugs ih).alloc s.world (State.pagesFor (size + 32))).1
            = ih.addr + (a <<< 12) := by
          have hserved : s.world.alloc (State.pagesFor (size + 32)) = some (a, _) := hserved
          simp only [bootPlugs, hserved]
        omega

theorem initial_heap_under_malloc_first :
    ∃ (p : Nat) (s : State Heap), ledger [.malloc 24 p] p = some (List.replicate 24 none)
      ∧ s.world.used ((p + 23 - BootHeap.lowHeap.addr) / 4096) = true := by
  obtain ⟨p, s, -, hp, hrun⟩ := first_malloc
  obtain ⟨hheld, -⟩ := initial_heap_under_malloc BootHeap.lowHeap (fun _ => 0) hrun
  exact ⟨p, s, hp, (hheld p _ 23 hp (by decide)).2.2⟩

end MierOS.Memory.Liballoc
