/-
  MierOS.Tasking.StreamLifetime
  **WHO DELETES A STREAM**: `streamwrapper.cpp` under the descriptor tables of
  all processes.

  A descriptor holds a `StreamWrapper`; copies of a wrapper share one block with
  the stream and a reference count, and the copy that takes the count to zero
  deletes the stream.  `add_stream` makes a NEW block on every call, so a stream
  that was added twice has two blocks and two counts, and the first of them to
  reach zero deletes it under the other.

  Main results: `Accounted`, `stream_deleted_with_last_descriptor`,
  `shared_stream_deleted_early`.
-/
import MierOS.Lib.Refs
import MierOS.Tasking.Descriptors

namespace MierOS.Tasking.StreamLifetime

open Lib Lib.Refs Stdlib
open Function (update update_eq_self update_idem update_of_ne update_self)

/-! ## §1. Wrappers. -/

/-- A `Stream` object. -/
abbrev StreamPtr := Nat

/-- `StreamWrapper::f_data`. -/
abbrev BlockPtr := Nat

/-- `StreamWrapper::DataStorage`. -/
structure DataStorage where
  base : StreamPtr
  referenceCount : Int
  deriving Repr, DecidableEq

/-- The blocks, the next one to be made, and the streams deleted so far, last
first. -/
structure Heap where
  storage : BlockPtr → DataStorage
  next : BlockPtr
  deleted : List StreamPtr

namespace Heap

/-- No block was made yet. -/
def init : Heap := ⟨fun _ => ⟨0, 0⟩, 0, []⟩

/-- `StreamWrapper(Stream* base)`. -/
def wrap (h : Heap) (base : StreamPtr) : BlockPtr × Heap :=
  (h.next, { h with storage := update h.storage h.next ⟨base, 1⟩, next := h.next + 1 })

/-- `StreamWrapper(const StreamWrapper& other)`. -/
def copy (h : Heap) (b : BlockPtr) : Heap :=
  { h with
    storage := update h.storage b ⟨(h.storage b).base, (h.storage b).referenceCount + 1⟩ }

/-- `StreamWrapper::clear()`. -/
def clear (h : Heap) (b : BlockPtr) : Heap :=
  let refCount := (h.storage b).referenceCount
  { h with
    storage := update h.storage b ⟨(h.storage b).base, refCount - 1⟩
    deleted := if refCount = 1 then (h.storage b).base :: h.deleted else h.deleted }

theorem clear_base (h : Heap) (b c : BlockPtr) :
    ((h.clear b).storage c).base = (h.storage c).base := by
  show (update h.storage b _ c).base = _
  by_cases hc : c = b
  · rw [hc, update_self]
  · rw [update_of_ne hc]

theorem copy_base (h : Heap) (b c : BlockPtr) :
    ((h.copy b).storage c).base = (h.storage c).base := by
  show (update h.storage b _ c).base = _
  by_cases hc : c = b
  · rw [hc, update_self]
  · rw [update_of_ne hc]

theorem clear_count (h : Heap) (b c : BlockPtr) :
    ((h.clear b).storage c).referenceCount
      = (h.storage c).referenceCount - tally (some b) c := by
  show (update h.storage b _ c).referenceCount = _
  by_cases hc : c = b
  · rw [hc, update_self, tally_self]
  · rw [update_of_ne hc, tally_of_ne hc, sub_zero]

theorem copy_count (h : Heap) (b c : BlockPtr) :
    ((h.copy b).storage c).referenceCount
      = (h.storage c).referenceCount + tally (some b) c := by
  show (update h.storage b _ c).referenceCount = _
  by_cases hc : c = b
  · rw [hc, update_self, tally_self]
  · rw [update_of_ne hc, tally_of_ne hc, add_zero]

end Heap

/-! ## §2. Counts and positions. -/

/-- **The counts are right**, for wrappers at the positions of `r`: a block counts
its wrappers, and a stream is deleted, once, when it has been added and nothing
wraps it. -/
structure Accounted {ι : Type} (r : ι → Option BlockPtr) (h : Heap) (added : List StreamPtr) :
    Prop where
  finite : Refs.Finite r
  counted : ∀ b, (h.storage b).referenceCount = refs r b
  fresh : ∀ i b, r i = some b → b < h.next
  wrapped : ∀ i b, r i = some b → (h.storage b).base ∈ added
  once : h.deleted.Nodup
  gone : ∀ s, s ∈ h.deleted ↔ s ∈ added ∧ ∀ i b, r i = some b → (h.storage b).base ≠ s

/-- `b` has wrappers, and all of them are in `D`. -/
def LastIn {ι : Type} (r : ι → Option BlockPtr) (D : ι → Prop) (b : BlockPtr) : Prop :=
  (∃ i, r i = some b) ∧ ∀ i, r i = some b → D i

/-- A block whose last wrapper is in `D` is the only one around its stream. -/
def Sole {ι : Type} (r : ι → Option BlockPtr) (h : Heap) (D : ι → Prop) : Prop :=
  ∀ b, LastIn r D b → ∀ j c, r j = some c → (h.storage c).base = (h.storage b).base → c = b

section Accounting

variable {ι : Type} [DecidableEq ι] {r r' : ι → Option BlockPtr} {h : Heap}
  {added : List StreamPtr}

/-- What is left when position `i` is cleared. -/
theorem cleared_eq_some {i j : ι} {c : BlockPtr} :
    update r i none j = some c ↔ j ≠ i ∧ r j = some c := by
  by_cases hj : j = i
  · rw [hj, update_self]
    exact ⟨fun hc => absurd hc (by simp), fun hc => absurd rfl hc.1⟩
  · rw [update_of_ne hj]
    exact ⟨fun hc => ⟨hj, hc⟩, fun hc => hc.2⟩

omit [DecidableEq ι] in
/-- A wrapper is not at an empty position. -/
theorem ne_of_empty {i k : ι} {c : BlockPtr} (hi : r i = none) (hk : r k = some c) : k ≠ i := by
  rintro rfl
  rw [hi] at hk
  exact absurd hk (by simp)

/-- **A wrapper is destroyed.** -/
theorem Accounted.clear (hacc : Accounted r h added) {i : ι} {b : BlockPtr} (hi : r i = some b)
    (hsole : Sole r h (fun j => j = i)) : Accounted (update r i none) (h.clear b) added := by
  have hcount := hacc.counted b
  have hpos := refs_pos hacc.finite hi
  refine ⟨hacc.finite.update i none, fun c => ?_, fun j c hj => ?_, fun j c hj => ?_, ?_, ?_⟩
  · rw [Heap.clear_count, hacc.counted, refs_update hacc.finite, hi, tally_none, Pi.zero_apply,
      add_zero]
  · exact hacc.fresh j c (cleared_eq_some.mp hj).2
  · rw [Heap.clear_base]
    exact hacc.wrapped j c (cleared_eq_some.mp hj).2
  · show (if (h.storage b).referenceCount = 1 then _ else _ : List StreamPtr).Nodup
    split
    · -- the position itself shows that the stream was not deleted before
      refine List.nodup_cons.mpr ⟨fun hmem => ?_, hacc.once⟩
      exact ((hacc.gone _).mp hmem).2 i b hi rfl
    · exact hacc.once
  · intro s
    show s ∈ (if (h.storage b).referenceCount = 1 then _ else _ : List StreamPtr) ↔ _
    simp only [Heap.clear_base, cleared_eq_some]
    split
    · rename_i hone
      have hlast : LastIn r (fun j => j = i) b :=
        ⟨⟨i, hi⟩, fun j hj => unique_of_refs_le_one hacc.finite (by omega) hj hi⟩
      rw [List.mem_cons, hacc.gone]
      constructor
      · rintro (rfl | ⟨hadded, hnone⟩)
        · refine ⟨hacc.wrapped i b hi, fun j c hj hbase => hj.1 ?_⟩
          exact hlast.2 j (hsole b hlast j c hj.2 hbase ▸ hj.2)
        · exact ⟨hadded, fun j c hj => hnone j c hj.2⟩
      · intro ⟨hadded, hnone⟩
        by_cases hs : s = (h.storage b).base
        · exact Or.inl hs
        · refine Or.inr ⟨hadded, fun j c hj => ?_⟩
          by_cases hji : j = i
          · rw [hji, hi] at hj
            exact Option.some.inj hj ▸ Ne.symm hs
          · exact hnone j c ⟨hji, hj⟩
    · -- another wrapper of the block is left
      rename_i hmany
      obtain ⟨k, hki, hk⟩ := exists_other_of_one_lt_refs (f := r) (a := b) (by omega) i
      rw [hacc.gone]
      refine and_congr_right fun _ => ⟨fun hnone j c hj => hnone j c hj.2, fun hnone j c hj => ?_⟩
      by_cases hji : j = i
      · rw [hji, hi] at hj
        exact Option.some.inj hj ▸ hnone k b ⟨hki, hk⟩
      · exact hnone j c ⟨hji, hj⟩

/-- **Several wrappers are destroyed**, one after the other. -/
theorem Accounted.clearAll (es : List (ι × BlockPtr)) : ∀ {r : ι → Option BlockPtr} {h : Heap},
    Accounted r h added → (es.map Prod.fst).Nodup → (∀ e, e ∈ es → r e.1 = some e.2) →
    Sole r h (fun i => i ∈ es.map Prod.fst) →
    (∀ i, r' i = if i ∈ es.map Prod.fst then none else r i) →
    Accounted r' (es.foldl (fun h e => h.clear e.2) h) added := by
  induction es with
  | nil =>
      intro r h hacc _ _ _ hr'
      have hsame : r' = r := funext fun i => (hr' i).trans (if_neg List.not_mem_nil)
      rw [hsame]
      exact hacc
  | cons e es ih =>
      intro r h hacc hnodup hes hsole hr'
      rw [List.map_cons, List.nodup_cons] at hnodup
      have hfirst : Sole r h (fun j => j = e.1) := fun b hlast =>
        hsole b ⟨hlast.1, fun i hi => by
          rw [hlast.2 i hi]
          exact List.mem_cons_self⟩
      have hacc' := hacc.clear (hes e List.mem_cons_self) hfirst
      refine ih hacc' hnodup.2 (fun x hx => ?_) ?_ (fun i => ?_)
      · refine cleared_eq_some.mpr ⟨fun heq => ?_, hes x (List.mem_cons_of_mem _ hx)⟩
        exact hnodup.1 (heq ▸ List.mem_map_of_mem hx)
      · intro b ⟨⟨k, hk⟩, hin⟩ j c hj hbase
        rw [Heap.clear_base, Heap.clear_base] at hbase
        refine hsole b ⟨⟨k, (cleared_eq_some.mp hk).2⟩, fun i hi => ?_⟩ j c
          (cleared_eq_some.mp hj).2 hbase
        by_cases hie : i = e.1
        · rw [hie]
          exact List.mem_cons_self
        · exact List.mem_cons_of_mem _ (hin i (cleared_eq_some.mpr ⟨hie, hi⟩))
      · rw [hr' i, List.map_cons]
        by_cases hie : i = e.1
        · rw [hie, update_self, if_pos List.mem_cons_self, ite_self]
        · rw [update_of_ne hie]
          simp only [List.mem_cons, hie, false_or]

/-- **A wrapper is copied** into an empty position. -/
theorem Accounted.copy (hacc : Accounted r h added) {i j : ι} {b : BlockPtr} (hi : r i = none)
    (hj : r j = some b) : Accounted (update r i (some b)) (h.copy b) added := by
  have hold : ∀ k c, update r i (some b) k = some c → ∃ l, r l = some c := by
    intro k c hk
    by_cases hki : k = i
    · rw [hki, update_self] at hk
      exact ⟨j, hj.trans hk⟩
    · rw [update_of_ne hki] at hk
      exact ⟨k, hk⟩
  refine ⟨hacc.finite.update i _, fun c => ?_, fun k c hk => ?_, fun k c hk => ?_, hacc.once,
    fun s => ?_⟩
  · rw [Heap.copy_count, hacc.counted, refs_update hacc.finite, hi, tally_none, Pi.zero_apply,
      sub_zero]
  · obtain ⟨l, hl⟩ := hold k c hk
    exact hacc.fresh l c hl
  · obtain ⟨l, hl⟩ := hold k c hk
    rw [Heap.copy_base]
    exact hacc.wrapped l c hl
  · show s ∈ h.deleted ↔ _
    rw [hacc.gone]
    simp only [Heap.copy_base]
    refine and_congr_right fun _ => ⟨fun hnone k c hk => ?_, fun hnone k c hk => ?_⟩
    · obtain ⟨l, hl⟩ := hold k c hk
      exact hnone l c hl
    · refine hnone k c ?_
      rw [update_of_ne (ne_of_empty hi hk)]
      exact hk

/-- **Several wrappers are copied** into empty positions. -/
theorem Accounted.copyAll (es : List (ι × BlockPtr)) : ∀ {r : ι → Option BlockPtr} {h : Heap},
    Accounted r h added → (es.map Prod.fst).Nodup → (∀ e, e ∈ es → r e.1 = none) →
    (∀ e, e ∈ es → ∃ j, r j = some e.2) → (∀ e, e ∈ es → r' e.1 = some e.2) →
    (∀ i, i ∉ es.map Prod.fst → r' i = r i) →
    Accounted r' (es.foldl (fun h e => h.copy e.2) h) added := by
  induction es with
  | nil =>
      intro r h hacc _ _ _ _ hr'
      have hsame : r' = r := funext fun i => hr' i List.not_mem_nil
      rw [hsame]
      exact hacc
  | cons e es ih =>
      intro r h hacc hnodup hempty hfrom hto hr'
      rw [List.map_cons, List.nodup_cons] at hnodup
      obtain ⟨j, hj⟩ := hfrom e List.mem_cons_self
      have hkeep : ∀ k, k ≠ e.1 → update r e.1 (some e.2) k = r k := fun k hk =>
        update_of_ne hk _ _
      have hfree := hempty e List.mem_cons_self
      have hacc' := hacc.copy hfree hj
      refine ih hacc' hnodup.2 (fun x hx => ?_) (fun x hx => ?_)
        (fun x hx => hto x (List.mem_cons_of_mem _ hx)) (fun i hi => ?_)
      · rw [hkeep _ fun heq => hnodup.1 (heq ▸ List.mem_map_of_mem hx)]
        exact hempty x (List.mem_cons_of_mem _ hx)
      · obtain ⟨k, hk⟩ := hfrom x (List.mem_cons_of_mem _ hx)
        exact ⟨k, (hkeep k (ne_of_empty hfree hk)).trans hk⟩
      · by_cases hie : i = e.1
        · rw [hie, update_self]
          exact hto e List.mem_cons_self
        · rw [hkeep i hie]
          refine hr' i fun hmem => ?_
          rcases List.mem_cons.mp hmem with heq | hin
          · exact hie heq
          · exact hi hin

/-- **A live stream is wrapped** into an empty position. -/
theorem Accounted.wrap (hacc : Accounted r h added) {i : ι} {s : StreamPtr} (hi : r i = none)
    (hlive : s ∉ h.deleted) :
    Accounted (update r i (some h.next)) (h.wrap s).2 (s :: added) := by
  have hnew : ∀ k c, update r i (some h.next) k = some c →
      (k = i ∧ c = h.next) ∨ (r k = some c ∧ c ≠ h.next) := by
    intro k c hk
    by_cases hki : k = i
    · rw [hki, update_self] at hk
      exact Or.inl ⟨hki, (Option.some.inj hk).symm⟩
    · rw [update_of_ne hki] at hk
      exact Or.inr ⟨hk, Nat.ne_of_lt (hacc.fresh k c hk)⟩
  have hbase : ∀ c, c ≠ h.next → ((h.wrap s).2.storage c).base = (h.storage c).base := by
    intro c hc
    show (update h.storage h.next _ c).base = _
    rw [update_of_ne hc]
  have hself : ((h.wrap s).2.storage h.next).base = s := by
    show (update h.storage h.next _ h.next).base = _
    rw [update_self]
  refine ⟨hacc.finite.update i _, fun c => ?_, fun k c hk => ?_, fun k c hk => ?_, hacc.once,
    fun t => ?_⟩
  · rw [refs_update hacc.finite, hi, tally_none, Pi.zero_apply, sub_zero]
    show (update h.storage h.next _ c).referenceCount = _
    by_cases hc : c = h.next
    · have hzero : refs r h.next = 0 := refs_eq_zero fun k hk =>
        absurd (hacc.fresh k _ hk) (Nat.lt_irrefl _)
      rw [hc, update_self, tally_self, hzero]
      rfl
    · rw [update_of_ne hc, tally_of_ne hc, add_zero]
      exact hacc.counted c
  · show c < h.next + 1
    rcases hnew k c hk with ⟨-, rfl⟩ | ⟨hold, -⟩
    · exact Nat.lt_succ_self _
    · exact Nat.lt_succ_of_lt (hacc.fresh k c hold)
  · rcases hnew k c hk with ⟨-, rfl⟩ | ⟨hold, hc⟩
    · rw [hself]
      exact List.mem_cons_self
    · rw [hbase c hc]
      exact List.mem_cons_of_mem _ (hacc.wrapped k c hold)
  · show t ∈ h.deleted ↔ _
    constructor
    · intro hmem
      have hts : t ≠ s := fun heq => hlive (heq ▸ hmem)
      obtain ⟨hadded, hnone⟩ := (hacc.gone t).mp hmem
      refine ⟨List.mem_cons_of_mem _ hadded, fun k c hk => ?_⟩
      rcases hnew k c hk with ⟨-, rfl⟩ | ⟨hold, hc⟩
      · rw [hself]
        exact Ne.symm hts
      · rw [hbase c hc]
        exact hnone k c hold
    · intro ⟨hadded, hnone⟩
      -- the new wrapper is around `s`
      have hts : t ≠ s := by
        intro heq
        refine hnone i h.next (update_self ..) ?_
        rw [hself, heq]
      refine (hacc.gone t).mpr ⟨(List.mem_cons.mp hadded).resolve_left hts, fun k c hk => ?_⟩
      have hc := Nat.ne_of_lt (hacc.fresh k c hk)
      rw [← hbase c hc]
      refine hnone k c ?_
      rw [update_of_ne (ne_of_empty hi hk), hk]

end Accounting

/-! ## §3. The processes. -/

abbrev Pid := Nat

/-- The descriptor tables of the processes, and the blocks. -/
structure World where
  procs : Pid → Option (FdTable BlockPtr)
  heap : Heap

/-- A call.  `freed` is what a wrapper destroyed a moment ago still points to. -/
inductive StreamEvent
  | construct (p : Pid)
  | addStream (p : Pid) (stream : StreamPtr) (hint : Fd)
  | closeStream (p : Pid) (fd : Fd)
  | dupStream (p : Pid) (oldFd newFd : Fd) (freed : BlockPtr)
  | fork (p child : Pid)
  | die (p : Pid)
  deriving Repr, DecidableEq

namespace World

variable (hash : Fd → Nat)

/-- No process. -/
def init : World := ⟨fun _ => none, Heap.init⟩

/-- `f_streams.erase(fd)` destroys the wrapper of the entry, if there is one. -/
def clearAt (t : FdTable BlockPtr) (fd : Fd) (h : Heap) : Heap :=
  match t.streams.at hash fd with
  | some b => h.clear b
  | none => h

/-- `Process(entry_point)`. -/
def construct (w : World) (p : Pid) : Option World :=
  match w.procs p with
  | some _ => none
  | none => some { w with procs := update w.procs p (some FdTable.empty) }

/-- `add_stream(stream, hint)`.  The temporaries that carry the new wrapper into its
entry add to the count and take off again. -/
def addStream (w : World) (p : Pid) (stream : StreamPtr) (hint : Fd) : Option World := do
  let t ← w.procs p
  let heap := if hint ≠ Fd.none then clearAt hash t hint w.heap else w.heap
  let (b, heap) := heap.wrap stream
  let (_, t) ← t.addStream hash b hint
  pure { procs := update w.procs p (some t), heap := heap }

/-- `close_stream(fd)`. -/
def closeStream (w : World) (p : Pid) (fd : Fd) : Option World := do
  let t ← w.procs p
  pure { procs := update w.procs p (some (t.closeStream hash fd))
         heap := clearAt hash t fd w.heap }

/-- `dup_stream(oldFd, newFd)`. -/
def dupStream (w : World) (p : Pid) (oldFd newFd : Fd) (freed : BlockPtr) : Option World := do
  let t ← w.procs p
  let (_, t') ← t.dupStream hash oldFd newFd freed
  let heap :=
    match t.streams.at hash oldFd with
    | none => w.heap
    | some val =>
        if newFd ≠ Fd.none then
          (clearAt hash t newFd w.heap).copy (if oldFd = newFd then freed else val)
        else w.heap.copy val
  pure { procs := update w.procs p (some t'), heap := heap }

/-- The streams in `Process::fork`. -/
def fork (w : World) (p child : Pid) : Option World := do
  let t ← w.procs p
  match w.procs child with
  | some _ => none
  | none =>
      pure { procs := update w.procs child (some (t.cloneStreams hash))
             heap := t.streams.entries.foldl (fun h e => h.copy e.2) w.heap }

/-- `f_streams.clear()` at the end of `Process::minimize`. -/
def die (w : World) (p : Pid) : Option World := do
  let t ← w.procs p
  pure { procs := update w.procs p (some { t with streams := t.streams.clear })
         heap := t.streams.entries.foldl (fun h e => h.clear e.2) w.heap }

/-- Run one call. -/
def call (w : World) : StreamEvent → Option World
  | .construct p => w.construct p
  | .addStream p stream hint => w.addStream hash p stream hint
  | .closeStream p fd => w.closeStream hash p fd
  | .dupStream p oldFd newFd freed => w.dupStream hash p oldFd newFd freed
  | .fork p child => w.fork hash p child
  | .die p => w.die p

/-- The block behind descriptor `i.2` of process `i.1`. -/
def block (w : World) (i : Pid × Fd) : Option BlockPtr :=
  (w.procs i.1).bind fun t => t.streams.at hash i.2

/-- Descriptor `fd` of process `p` refers to stream `s`. -/
def Refers (w : World) (p : Pid) (fd : Fd) (s : StreamPtr) : Prop :=
  ∃ b, w.block hash (p, fd) = some b ∧ (w.heap.storage b).base = s

/-- The descriptors that a call gives up. -/
def GivesUp (w : World) : StreamEvent → Pid × Fd → Prop
  | .construct _, _ => False
  | .addStream p _ hint, i => i = (p, hint) ∧ hint ≠ Fd.none
  | .closeStream p fd, i => i = (p, fd)
  | .dupStream p oldFd newFd _, i =>
      i = (p, newFd) ∧ newFd ≠ Fd.none ∧ w.block hash (p, oldFd) ≠ none
  | .fork _ _, _ => False
  | .die p, i => i.1 = p

/-- The call gives up the last descriptor of block `b`. -/
def GivesUpLast (w : World) (e : StreamEvent) (b : BlockPtr) : Prop :=
  LastIn (w.block hash) (w.GivesUp hash e) b

/-- **The calls that go right**: no block loses its last descriptor while another
block is around the same stream, a stream that is added is alive when it is wrapped,
and no open descriptor is duplicated onto itself. -/
structure Proper (w : World) (e : StreamEvent) : Prop where
  sole : ∀ b, w.GivesUpLast hash e b → ∀ i c, w.block hash i = some c →
    (w.heap.storage c).base = (w.heap.storage b).base → c = b
  alive : ∀ p s hint, e = .addStream p s hint → s ∉ w.heap.deleted
    ∧ ∀ b, w.GivesUpLast hash e b → (w.heap.storage b).base ≠ s
  notOnto : ∀ p oldFd newFd freed, e = .dupStream p oldFd newFd freed → newFd ≠ Fd.none →
    w.block hash (p, oldFd) ≠ none → oldFd ≠ newFd

/-- One call as a step. -/
def Step (w : World) (e : StreamEvent) (w' : World) : Prop := w.call hash e = some w'

end World

/-- The streams given to `add_stream`. -/
def added (hist : List StreamEvent) : List StreamPtr :=
  hist.filterMap fun e =>
    match e with
    | .addStream _ stream _ => some stream
    | _ => none

/-- **The invariant of the descriptors.** -/
structure LifetimeOk (hash : Fd → Nat) (hist : List StreamEvent) (w : World) : Prop where
  tables : ∀ p t, w.procs p = some t → t.streams.WF hash
  accounted : Accounted (w.block hash) w.heap (added hist)

section Calls

open World

variable {hash : Fd → Nat} {w w' : World} {hist : List StreamEvent}

/-- The descriptors after one process got another table. -/
theorem block_update {p : Pid} {t' : FdTable BlockPtr} (h : Heap) (i : Pid × Fd) :
    block hash ⟨update w.procs p (some t'), h⟩ i
      = if i.1 = p then t'.streams.at hash i.2 else w.block hash i := by
  show (update w.procs p (some t') i.1).bind _ = _
  by_cases hi : i.1 = p
  · rw [if_pos hi, hi, update_self]
    rfl
  · rw [if_neg hi, update_of_ne hi]
    rfl

/-- The blocks when one descriptor of the table changed. -/
theorem block_update_one {p : Pid} {t t' : FdTable BlockPtr} (h : Heap) {fd : Fd}
    {v : Option BlockPtr} (ht : w.procs p = some t)
    (hat : ∀ x, t'.streams.at hash x = if x = fd then v else t.streams.at hash x) :
    block hash ⟨update w.procs p (some t'), h⟩
      = update (w.block hash) (p, fd) v := by
  funext i
  rw [block_update]
  by_cases hi : i = (p, fd)
  · rw [hi, update_self, if_pos rfl, hat, if_pos rfl]
  · rw [update_of_ne hi]
    by_cases hp : i.1 = p
    · have hfd : i.2 ≠ fd := fun heq => hi (Prod.ext hp heq)
      rw [if_pos hp, hat, if_neg hfd]
      unfold World.block
      rw [hp, ht]
      rfl
    · rw [if_neg hp]

theorem block_eq {p : Pid} {t : FdTable BlockPtr} (ht : w.procs p = some t) (fd : Fd) :
    w.block hash (p, fd) = t.streams.at hash fd := by
  unfold World.block
  rw [ht]
  rfl

theorem LifetimeOk.of_table (hok : LifetimeOk hash hist w) {p : Pid} {t' : FdTable BlockPtr}
    {h : Heap} {e : StreamEvent} (ht' : t'.streams.WF hash)
    (hacc : Accounted (block hash ⟨update w.procs p (some t'), h⟩) h (added (e :: hist))) :
    LifetimeOk hash (e :: hist) ⟨update w.procs p (some t'), h⟩ := by
  refine ⟨fun q t hq => ?_, hacc⟩
  have hq : update w.procs p (some t') q = some t := hq
  by_cases hqp : q = p
  · rw [hqp, update_self] at hq
    exact Option.some.inj hq ▸ ht'
  · rw [update_of_ne hqp] at hq
    exact hok.tables q t hq

/-- One descriptor of the table changed. -/
theorem LifetimeOk.of_descriptor (hok : LifetimeOk hash hist w) {p : Pid}
    {t t' : FdTable BlockPtr} {h : Heap} {e : StreamEvent} {fd : Fd} {v : Option BlockPtr}
    (ht : w.procs p = some t) (ht' : t'.streams.WF hash)
    (hat : ∀ x, t'.streams.at hash x = if x = fd then v else t.streams.at hash x)
    (hacc : Accounted (update (w.block hash) (p, fd) v) h (added (e :: hist))) :
    LifetimeOk hash (e :: hist) ⟨update w.procs p (some t'), h⟩ := by
  refine hok.of_table ht' ?_
  rw [block_update_one h ht hat]
  exact hacc

/-- **`erase` and the counts.** -/
theorem Accounted.clearAt {strs : List StreamPtr} (hacc : Accounted (w.block hash) w.heap strs)
    {p : Pid} {t : FdTable BlockPtr} (ht : w.procs p = some t) (fd : Fd)
    (hsole : Sole (w.block hash) w.heap (fun i => i = (p, fd))) :
    Accounted (update (w.block hash) (p, fd) none) (clearAt hash t fd w.heap) strs := by
  unfold World.clearAt
  cases hat : t.streams.at hash fd with
  | some b => exact hacc.clear ((block_eq ht fd).trans hat) hsole
  | none =>
      rw [update_none_of_none ((block_eq ht fd).trans hat)]
      exact hacc

/-- What a destroyed wrapper deletes, it was the last one of. -/
theorem deleted_clearAt {strs : List StreamPtr} (hacc : Accounted (w.block hash) w.heap strs)
    {p : Pid} {t : FdTable BlockPtr} (ht : w.procs p = some t) {fd : Fd} {s : StreamPtr}
    (hs : s ∈ (clearAt hash t fd w.heap).deleted) :
    s ∈ w.heap.deleted
      ∨ ∃ b, LastIn (w.block hash) (fun i => i = (p, fd)) b ∧ (w.heap.storage b).base = s := by
  unfold World.clearAt at hs
  cases hat : t.streams.at hash fd with
  | none =>
      rw [hat] at hs
      exact Or.inl hs
  | some b =>
      rw [hat] at hs
      have hb := (block_eq ht fd).trans hat
      have hs : s ∈ (if (w.heap.storage b).referenceCount = 1
          then (w.heap.storage b).base :: w.heap.deleted else w.heap.deleted) := hs
      split at hs
      · rename_i hone
        rw [hacc.counted b] at hone
        rcases List.mem_cons.mp hs with rfl | hold
        · exact Or.inr ⟨b, ⟨⟨_, hb⟩, fun i hi =>
            unique_of_refs_le_one hacc.finite (by omega) hi hb⟩, rfl⟩
        · exact Or.inl hold
      · exact Or.inl hs

theorem LifetimeOk.construct (hok : LifetimeOk hash hist w) {p : Pid}
    (hs : w.construct p = some w') : LifetimeOk hash (.construct p :: hist) w' := by
  unfold World.construct at hs
  cases hp : w.procs p with
  | some t =>
      rw [hp] at hs
      exact absurd hs (by simp)
  | none =>
      rw [hp] at hs
      injection hs with hs
      rw [← hs]
      refine hok.of_table FdTable.wf_empty.map ?_
      have hsame : block hash
          ⟨update w.procs p (some FdTable.empty), w.heap⟩ = w.block hash := by
        funext i
        rw [block_update]
        by_cases hi : i.1 = p
        · rw [if_pos hi]
          unfold World.block
          rw [hi, hp]
          exact UnorderedMap.at_ofCapacity (by decide) i.2
        · rw [if_neg hi]
      rw [hsame]
      exact hok.accounted

theorem LifetimeOk.addStream (hok : LifetimeOk hash hist w) {p : Pid} {stream : StreamPtr}
    {hint : Fd} (hproper : w.Proper hash (.addStream p stream hint))
    (hs : w.addStream hash p stream hint = some w') :
    LifetimeOk hash (.addStream p stream hint :: hist) w' := by
  unfold World.addStream at hs
  simp only [Option.bind_eq_bind, Option.bind_eq_some_iff, Prod.exists, pure,
    Option.some.injEq] at hs
  obtain ⟨t, ht, fd, t', hadd, rfl⟩ := hs
  have htable := hok.tables p t ht
  obtain ⟨hlive, hlast⟩ := hproper.alive p stream hint rfl
  by_cases hhint : hint = Fd.none
  · -- the search found a free descriptor
    rw [if_neg (not_not_intro hhint)] at hadd ⊢
    rw [hhint] at hadd
    obtain ⟨hsearch, rfl⟩ := FdTable.addStream_none hadd
    have hfree := FdTable.firstUnused_free hsearch
    have hat := UnorderedMap.at_insert htable (w.heap.wrap stream).1 hfree
    refine hok.of_descriptor ht (htable.insert fd _) hat ?_
    exact hok.accounted.wrap ((block_eq ht fd).trans hfree) hlive
  · -- the entry under the hint goes first
    have hgives : ∀ i, w.GivesUp hash (.addStream p stream hint) i ↔ i = (p, hint) :=
      fun i => and_iff_left hhint
    have hlast' : ∀ b, LastIn (w.block hash) (fun i => i = (p, hint)) b →
        w.GivesUpLast hash (.addStream p stream hint) b :=
      fun b hb => ⟨hb.1, fun i hi => (hgives i).mpr (hb.2 i hi)⟩
    rw [if_pos hhint] at hadd ⊢
    unfold FdTable.addStream at hadd
    rw [if_pos hhint, Option.some.injEq, Prod.mk.injEq] at hadd
    obtain ⟨hwf, hat⟩ := FdTable.at_overwrite htable hint ((clearAt hash t hint w.heap).wrap stream).1
    rw [← hadd.2]
    refine hok.of_descriptor ht hwf hat ?_
    have hcleared := hok.accounted.clearAt ht hint
      fun b hb => hproper.sole b (hlast' b hb)
    have hfree : update (w.block hash) (p, hint) none (p, hint) = none :=
      update_self ..
    have hwrapped := hcleared.wrap hfree fun hmem =>
      (deleted_clearAt hok.accounted ht hmem).elim hlive fun ⟨b, hb, hbase⟩ =>
        hlast b (hlast' b hb) hbase
    rw [update_idem] at hwrapped
    exact hwrapped

theorem LifetimeOk.closeStream (hok : LifetimeOk hash hist w) {p : Pid} {fd : Fd}
    (hproper : w.Proper hash (.closeStream p fd)) (hs : w.closeStream hash p fd = some w') :
    LifetimeOk hash (.closeStream p fd :: hist) w' := by
  unfold World.closeStream at hs
  simp only [Option.bind_eq_bind, Option.bind_eq_some_iff, pure, Option.some.injEq] at hs
  obtain ⟨t, ht, rfl⟩ := hs
  have htable := hok.tables p t ht
  refine hok.of_descriptor ht (htable.erase fd) (UnorderedMap.at_erase htable fd) ?_
  exact hok.accounted.clearAt ht fd hproper.sole

theorem LifetimeOk.dupStream (hok : LifetimeOk hash hist w) {p : Pid} {oldFd newFd : Fd}
    {freed : BlockPtr} (hproper : w.Proper hash (.dupStream p oldFd newFd freed))
    (hs : w.dupStream hash p oldFd newFd freed = some w') :
    LifetimeOk hash (.dupStream p oldFd newFd freed :: hist) w' := by
  unfold World.dupStream at hs
  simp only [Option.bind_eq_bind, Option.bind_eq_some_iff, Prod.exists, pure,
    Option.some.injEq] at hs
  obtain ⟨t, ht, r, t', hdup, rfl⟩ := hs
  have htable := hok.tables p t ht
  have hold : w.block hash (p, oldFd) = t.streams.at hash oldFd := block_eq ht oldFd
  unfold FdTable.dupStream at hdup
  cases hval : t.streams.at hash oldFd with
  | none =>
      -- the old descriptor is closed: nothing happens
      rw [hval] at hdup
      injection hdup with hdup
      rw [← (Prod.mk.inj hdup).2]
      refine hok.of_table htable ?_
      have hsame : update w.procs p (some t) = w.procs := by
        rw [← ht]
        exact update_eq_self p w.procs
      rw [hsame]
      exact hok.accounted
  | some val =>
      rw [hval] at hdup hold
      dsimp only at hdup ⊢
      by_cases hnew : newFd = Fd.none
      · rw [if_neg (not_not_intro hnew)] at hdup ⊢
        cases hsearch : FdTable.firstUnused hash t.streams FdTable.searchSteps t.nextFd with
        | none =>
            rw [hsearch] at hdup
            exact absurd hdup (by simp)
        | some fd =>
            rw [hsearch] at hdup
            injection hdup with hdup
            rw [← (Prod.mk.inj hdup).2]
            have hfree := FdTable.firstUnused_free hsearch
            refine hok.of_descriptor ht (htable.insert fd val)
              (UnorderedMap.at_insert htable val hfree) ?_
            exact hok.accounted.copy ((block_eq ht fd).trans hfree) hold
      · -- the entry under the new descriptor goes first
        rw [if_pos hnew] at hdup ⊢
        have hopen : w.block hash (p, oldFd) ≠ none := by
          rw [hold]
          exact Option.some_ne_none val
        have hne := hproper.notOnto p oldFd newFd freed rfl hnew hopen
        rw [if_neg hne] at hdup ⊢
        injection hdup with hdup
        obtain ⟨hwf, hat⟩ := FdTable.at_overwrite htable newFd val
        rw [← (Prod.mk.inj hdup).2]
        refine hok.of_descriptor ht hwf hat ?_
        have hcleared := hok.accounted.clearAt ht newFd fun b hb => hproper.sole b
          ⟨hb.1, fun i hi => ⟨hb.2 i hi, hnew, hopen⟩⟩
        have hfree : update (w.block hash) (p, newFd) none (p, newFd) = none :=
          update_self ..
        have hcopied := hcleared.copy hfree
          (cleared_eq_some.mpr ⟨fun heq => hne (Prod.mk.inj heq).2, hold⟩)
        rw [update_idem] at hcopied
        exact hcopied

/-- The entries of a table, with the process in front. -/
def positions (p : Pid) (t : FdTable BlockPtr) : List ((Pid × Fd) × BlockPtr) :=
  t.streams.entries.map fun e => ((p, e.1), e.2)

theorem positions_nodup {t : FdTable BlockPtr} (ht : t.streams.WF hash) (p : Pid) :
    ((positions p t).map Prod.fst).Nodup := by
  have hmap : (positions p t).map Prod.fst = (t.streams.entries.map Prod.fst).map (p, ·) := by
    unfold positions
    rw [List.map_map, List.map_map]
    rfl
  rw [hmap]
  exact ht.nodup.map fun a b hab => (Prod.mk.inj hab).2

theorem mem_positions {t : FdTable BlockPtr} (ht : t.streams.WF hash) (p : Pid)
    (e : (Pid × Fd) × BlockPtr) :
    e ∈ positions p t ↔ e.1.1 = p ∧ t.streams.at hash e.1.2 = some e.2 := by
  unfold positions
  rw [List.mem_map, UnorderedMap.at_eq_some_iff ht]
  constructor
  · rintro ⟨x, hx, rfl⟩
    exact ⟨rfl, hx⟩
  · intro ⟨hp, hx⟩
    exact ⟨_, hx, Prod.ext (Prod.ext hp.symm rfl) rfl⟩

theorem mem_positions_fst {t : FdTable BlockPtr} (ht : t.streams.WF hash) (p : Pid) (i : Pid × Fd) :
    i ∈ (positions p t).map Prod.fst ↔ i.1 = p ∧ t.streams.at hash i.2 ≠ none := by
  rw [List.mem_map]
  constructor
  · rintro ⟨e, he, rfl⟩
    obtain ⟨hp, hat⟩ := (mem_positions ht p e).mp he
    rw [hat]
    exact ⟨hp, Option.some_ne_none _⟩
  · intro ⟨hp, hat⟩
    obtain ⟨b, hb⟩ := Option.ne_none_iff_exists'.mp hat
    exact ⟨(i, b), (mem_positions ht p _).mpr ⟨hp, hb⟩, rfl⟩

theorem foldl_positions (f : Heap → BlockPtr → Heap) (p : Pid) (t : FdTable BlockPtr) (h : Heap) :
    t.streams.entries.foldl (fun h e => f h e.2) h
      = (positions p t).foldl (fun h e => f h e.2) h := by
  unfold positions
  rw [List.foldl_map]

theorem LifetimeOk.fork (hok : LifetimeOk hash hist w) {p child : Pid}
    (hs : w.fork hash p child = some w') : LifetimeOk hash (.fork p child :: hist) w' := by
  unfold World.fork at hs
  simp only [Option.bind_eq_bind, Option.bind_eq_some_iff] at hs
  obtain ⟨t, ht, hs⟩ := hs
  cases hchild : w.procs child with
  | some u =>
      rw [hchild] at hs
      exact absurd hs (by simp)
  | none =>
      rw [hchild] at hs
      injection hs with hs
      rw [← hs]
      have htable := hok.tables p t ht
      have hclone := FdTable.at_cloneStreams htable
      refine hok.of_table hclone.1 ?_
      have hempty : ∀ fd, w.block hash (child, fd) = none := by
        intro fd
        unfold World.block
        rw [hchild]
        rfl
      -- the child's table holds a copy of every wrapper of the parent's
      rw [foldl_positions Heap.copy child t]
      refine hok.accounted.copyAll _ (positions_nodup htable child) (fun e he => ?_)
        (fun e he => ?_) (fun e he => ?_) (fun i hi => ?_)
      · rw [show e.1 = (child, e.1.2) from Prod.ext ((mem_positions htable child e).mp he).1 rfl]
        exact hempty e.1.2
      · exact ⟨(p, e.1.2), (block_eq ht _).trans ((mem_positions htable child e).mp he).2⟩
      · obtain ⟨hp, hat⟩ := (mem_positions htable child e).mp he
        rw [block_update, if_pos hp, hclone.2, hat]
      · rw [block_update]
        by_cases hic : i.1 = child
        · rw [if_pos hic, hclone.2]
          rw [mem_positions_fst htable] at hi
          have hnone : t.streams.at hash i.2 = none := by
            by_contra hsome
            exact hi ⟨hic, hsome⟩
          rw [hnone, ← hempty i.2, ← hic]
        · rw [if_neg hic]

theorem LifetimeOk.die (hok : LifetimeOk hash hist w) {p : Pid}
    (hproper : w.Proper hash (.die p)) (hs : w.die p = some w') :
    LifetimeOk hash (.die p :: hist) w' := by
  unfold World.die at hs
  simp only [Option.bind_eq_bind, Option.bind_eq_some_iff, pure, Option.some.injEq] at hs
  obtain ⟨t, ht, rfl⟩ := hs
  have htable := hok.tables p t ht
  have hnone : ∀ fd, t.streams.clear.at hash fd = none :=
    fun fd => UnorderedMap.at_ofCapacity (by decide) fd
  refine hok.of_table (UnorderedMap.wf_ofCapacity hash (by decide)).1 ?_
  rw [foldl_positions Heap.clear p t]
  refine hok.accounted.clearAll _ (positions_nodup htable p) (fun e he => ?_) ?_ (fun i => ?_)
  · obtain ⟨hp, hat⟩ := (mem_positions htable p e).mp he
    rw [← hat, ← block_eq ht, ← hp]
  · -- a block whose last wrapper is in the table gives up its last one
    intro b hb
    refine hproper.sole b ⟨hb.1, fun i hi => ?_⟩
    exact ((mem_positions_fst htable p i).mp (hb.2 i hi)).1
  · rw [block_update]
    by_cases hip : i.1 = p
    · rw [if_pos hip, hnone]
      split
      · rfl
      · rename_i hout
        rw [mem_positions_fst htable, not_and, not_not] at hout
        rw [show i = (p, i.2) from Prod.ext hip rfl, block_eq ht]
        exact (hout hip).symm
    · rw [if_neg hip, if_neg fun hmem => hip ((mem_positions_fst htable p i).mp hmem).1]

/-- **Step lemma.** -/
theorem LifetimeOk.step {e : StreamEvent} (hok : LifetimeOk hash hist w)
    (hproper : w.Proper hash e) (hs : World.Step hash w e w') : LifetimeOk hash (e :: hist) w' := by
  cases e with
  | construct p => exact hok.construct hs
  | addStream p stream hint => exact hok.addStream hproper hs
  | closeStream p fd => exact hok.closeStream hproper hs
  | dupStream p oldFd newFd freed => exact hok.dupStream hproper hs
  | fork p child => exact hok.fork hs
  | die p => exact hok.die hproper hs

/-- **Run lemma.** -/
theorem LifetimeOk.run
    (hrun : GuardedRun (World.Step hash) (fun _ w e => w.Proper hash e) World.init hist w) :
    LifetimeOk hash hist w := by
  refine hrun.historyInvariant (LifetimeOk hash) ?_ fun hist w e w' hok hproper hs =>
    hok.step hproper hs
  have hnone : ∀ i b, World.init.block hash i ≠ some b := fun _ _ => nofun
  exact ⟨fun p t ht => (nomatch ht),
    ⟨finite_none, fun b => (congrArg Nat.cast (refs_eq_zero fun i => hnone i b)).symm,
      fun i b hi => absurd hi (hnone i b), fun i b hi => absurd hi (hnone i b), List.nodup_nil,
      fun s => ⟨nofun, fun h => (nomatch h.1)⟩⟩⟩

end Calls

/-- **THE LIFE OF A STREAM.**  In every run of proper calls, over any number of
processes, no stream is deleted twice, and the streams deleted are those that were
added and that no descriptor of any process refers to any more. -/
theorem stream_deleted_with_last_descriptor (hash : Fd → Nat) {hist : List StreamEvent}
    {w : World}
    (hrun : GuardedRun (World.Step hash) (fun _ w e => w.Proper hash e) World.init hist w) :
    w.heap.deleted.Nodup
      ∧ ∀ s, s ∈ w.heap.deleted ↔ s ∈ added hist ∧ ∀ p fd, ¬ w.Refers hash p fd s := by
  have hacc := (LifetimeOk.run hrun).accounted
  refine ⟨hacc.once, fun s => (hacc.gone s).trans (and_congr_right fun _ => ?_)⟩
  constructor
  · intro hnone p fd ⟨b, hb, hbase⟩
    exact hnone (p, fd) b hb hbase
  · exact fun hnone i b hi hbase => hnone i.1 i.2 ⟨b, hi, hbase⟩

/-- A descriptor handed to a child, then closed on both sides. -/
theorem stream_deleted_with_last_descriptor_fork :
    ∃ w : World, w.heap.deleted = [5] ∧ w.heap.deleted.Nodup
      ∧ ∀ s, s ∈ w.heap.deleted ↔
        s ∈ added [.die 1, .closeStream 0 Fd.zero, .fork 0 1, .addStream 0 5 Fd.none, .construct 0]
          ∧ ∀ p fd, ¬ w.Refers (fun _ => 0) p fd s := by
  -- with one block around, nothing else wraps its stream
  have hsole : ∀ {hist w} (e : StreamEvent), GuardedRun (World.Step fun _ => 0)
      (fun _ w e => w.Proper (fun _ => 0) e) World.init hist w → w.heap.next = 1 →
      ∀ b, w.GivesUpLast (fun _ => 0) e b → ∀ i c, w.block (fun _ => 0) i = some c →
        (w.heap.storage c).base = (w.heap.storage b).base → c = b := by
    intro hist w e hrun hnext b hb i c hc _
    have hfresh := (LifetimeOk.run hrun).accounted.fresh
    obtain ⟨j, hj⟩ := hb.1
    rw [hnext] at hfresh
    exact (Nat.lt_one_iff.mp (hfresh i c hc)).trans (Nat.lt_one_iff.mp (hfresh j b hj)).symm
  have hexec : ∃ w₁ w₂ w₃ w₄ w₅, World.Step (fun _ => 0) World.init (.construct 0) w₁
      ∧ World.Step (fun _ => 0) w₁ (.addStream 0 5 Fd.none) w₂
      ∧ World.Step (fun _ => 0) w₂ (.fork 0 1) w₃
      ∧ World.Step (fun _ => 0) w₃ (.closeStream 0 Fd.zero) w₄
      ∧ World.Step (fun _ => 0) w₄ (.die 1) w₅
      ∧ w₁.heap.deleted = [] ∧ w₃.heap.next = 1 ∧ w₄.heap.next = 1 ∧ w₅.heap.deleted = [5] :=
    ⟨_, _, _, _, _, rfl, rfl, rfl, rfl, rfl, rfl, rfl, rfl, rfl⟩
  obtain ⟨w₁, w₂, w₃, w₄, w₅, h₁, h₂, h₃, h₄, h₅, hd, hn₃, hn₄, hdeleted⟩ := hexec
  have p₁ : World.init.Proper (fun _ => 0) (.construct 0) :=
    ⟨fun b hb => (hb.2 _ hb.1.choose_spec).elim,
      fun _ _ _ he => StreamEvent.noConfusion he, fun _ _ _ _ he => StreamEvent.noConfusion he⟩
  have r₁ := GuardedRun.init.step (C := fun _ w e => w.Proper (fun _ => 0) e) p₁ h₁
  have p₂ : w₁.Proper (fun _ => 0) (.addStream 0 5 Fd.none) := by
    have hnone : ∀ b, ¬ w₁.GivesUpLast (fun _ => 0) (.addStream 0 5 Fd.none) b :=
      fun b hb => (hb.2 _ hb.1.choose_spec).2 rfl
    refine ⟨fun b hb => absurd hb (hnone b), fun p s hint _ => ?_,
      fun _ _ _ _ he => StreamEvent.noConfusion he⟩
    rw [hd]
    exact ⟨List.not_mem_nil, fun b hb => absurd hb (by simpa using hnone b)⟩
  have r₂ := r₁.step p₂ h₂
  have p₃ : w₂.Proper (fun _ => 0) (.fork 0 1) :=
    ⟨fun b hb => (hb.2 _ hb.1.choose_spec).elim,
      fun _ _ _ he => StreamEvent.noConfusion he, fun _ _ _ _ he => StreamEvent.noConfusion he⟩
  have r₃ := r₂.step p₃ h₃
  have p₄ : w₃.Proper (fun _ => 0) (.closeStream 0 Fd.zero) :=
    ⟨hsole _ r₃ hn₃,
      fun _ _ _ he => StreamEvent.noConfusion he, fun _ _ _ _ he => StreamEvent.noConfusion he⟩
  have r₄ := r₃.step p₄ h₄
  have p₅ : w₄.Proper (fun _ => 0) (.die 1) :=
    ⟨hsole _ r₄ hn₄,
      fun _ _ _ he => StreamEvent.noConfusion he, fun _ _ _ _ he => StreamEvent.noConfusion he⟩
  obtain ⟨honce, hiff⟩ := stream_deleted_with_last_descriptor (fun _ => 0) (r₄.step p₅ h₅)
  exact ⟨w₅, hdeleted, honce, hiff⟩

/-- **The three descriptors of `stage2_init`**: closing the first deletes the stream
under the other two, and closing the second deletes it again. -/
theorem shared_stream_deleted_early :
    ∃ w w', Run (World.Step fun _ => 0) World.init
        [.closeStream 0 Fd.zero, .addStream 0 5 Fd.none, .addStream 0 5 Fd.none,
          .addStream 0 5 Fd.none, .construct 0] w
      ∧ w.heap.deleted = [5] ∧ w.Refers (fun _ => 0) 0 Fd.zero.succ 5
      ∧ w.Step (fun _ => 0) (.closeStream 0 Fd.zero.succ) w' ∧ w'.heap.deleted = [5, 5] := by
  have hexec : ∃ w, [StreamEvent.construct 0, .addStream 0 5 Fd.none, .addStream 0 5 Fd.none,
      .addStream 0 5 Fd.none, .closeStream 0 Fd.zero].foldlM
        (fun w e => w.call (fun _ => 0) e) World.init = some w
      ∧ w.heap.deleted = [5] ∧ w.block (fun _ => 0) (0, Fd.zero.succ) = some 1
      ∧ (w.heap.storage 1).base = 5
      ∧ ∃ w', w.call (fun _ => 0) (.closeStream 0 Fd.zero.succ) = some w'
        ∧ w'.heap.deleted = [5, 5] :=
    ⟨_, rfl, rfl, rfl, rfl, _, rfl, rfl⟩
  obtain ⟨w, hw, hdeleted, hblock, hbase, w', hw', htwice⟩ := hexec
  exact ⟨w, w', Run.of_foldlM _ Run.init hw, hdeleted, ⟨1, hblock, hbase⟩, hw', htwice⟩

end MierOS.Tasking.StreamLifetime
