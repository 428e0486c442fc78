/-
  MierOS.Stdlib.Queue
  **`std::Queue`** of `queue.hpp`: a chain of entries with a pointer to its first entry, a
  pointer to its last, and a counter.

  A new entry is linked behind the last one, unless there is no last one, which is how an
  empty queue is told; taking the only entry has to clear that pointer again.

  Main results: `Holds`, `Holds.push`, `Holds.pop`, `queue_refines_fifo`.
-/
import MierOS.Lib.Links
import MierOS.Lib.Run

namespace MierOS.Stdlib

open Lib Lib.Links
open Function (update update_of_ne update_self)

/-! ## §1. The code. -/

/-- `Queue<T>` with the entries by their addresses; the null pointer is `0`. -/
structure Queue (T : Type) where
  value : Nat → T
  next : Nat → Nat
  first : Nat
  last : Nat
  size : Nat

namespace Queue

variable {T : Type}

/-- `Queue()`, in a memory with these entries. -/
def new (value : Nat → T) (next : Nat → Nat) : Queue T := ⟨value, next, 0, 0, 0⟩

/-- `push(entry)`. -/
def push (q : Queue T) (entry : Nat) : Queue T :=
  let q :=
    if q.last = 0 then { q with first := entry, last := entry }
    else { q with next := update q.next q.last entry, last := entry }
  { q with size := q.size + 1 }

/-- `push_back(value)`; `new Entry(value)` answers with `address`. -/
def pushBack (q : Queue T) (value : T) (address : Nat) : Queue T :=
  push
    { q with
      value := update q.value address value
      next := update q.next address 0 } address

/-- `pop_front()`, which follows `f_first` without a look at it; `none` when that is null. -/
def popFront (q : Queue T) : Option (T × Queue T) :=
  if q.first = 0 then none
  else
    let en := q.first
    let first := q.next en
    some (q.value en,
      { q with first := first, last := if first = 0 then 0 else q.last, size := q.size - 1 })

theorem popFront_of_ne {q : Queue T} {a : Nat} (hfirst : q.first = a) (hne : a ≠ 0) :
    q.popFront = some (q.value a,
      { q with
        first := q.next a
        last := if q.next a = 0 then 0 else q.last
        size := q.size - 1 }) := by
  subst hfirst
  exact if_neg hne

/-! ## §2. What a queue holds. -/

/-- **The entries of the queue**, from the first to the last, and their values. -/
structure Holds (q : Queue T) (entries : List Nat) (values : List T) : Prop where
  chain : Seg q.next q.first entries 0
  live : 0 ∉ entries
  nodup : entries.Nodup
  values_eq : entries.map q.value = values
  last_eq : q.last = entries.getLastD 0
  size_eq : q.size = entries.length

variable {q q' : Queue T} {entries : List Nat} {values : List T} {v : T} {address : Nat}

theorem holds_new (value : Nat → T) (next : Nat → Nat) : Holds (new value next) [] [] where
  chain := rfl
  live := List.not_mem_nil
  nodup := List.nodup_nil
  values_eq := rfl
  last_eq := rfl
  size_eq := rfl

theorem Holds.size_values (h : Holds q entries values) : q.size = values.length := by
  rw [h.size_eq, ← h.values_eq, List.length_map]

/-- The last pointer is null exactly in the empty queue. -/
theorem Holds.last_eq_zero_iff (h : Holds q entries values) : q.last = 0 ↔ entries = [] := by
  rw [h.last_eq]
  constructor
  · intro hlast
    rcases List.eq_nil_or_concat entries with hnil | ⟨l, a, rfl⟩
    · exact hnil
    · rw [List.concat_eq_append] at hlast h
      rw [List.getLastD_concat] at hlast
      exact absurd (hlast ▸ List.mem_append_right l List.mem_cons_self) h.live
  · intro hnil
    rw [hnil]
    rfl

/-- **A new entry goes behind the others.** -/
theorem Holds.push (h : Holds q entries values) (hne : address ≠ 0) (hfresh : address ∉ entries) :
    Holds (q.pushBack v address) (entries ++ [address]) (values ++ [v]) := by
  have hvalues : (entries ++ [address]).map (update q.value address v) = values ++ [v] := by
    rw [List.map_append, List.map_singleton, update_self, ← h.values_eq]
    congr 1
    exact List.map_congr_left fun a ha =>
      update_of_ne (show a ≠ address from fun heq => hfresh (heq ▸ ha)) _ _
  have hlive : 0 ∉ entries ++ [address] := by
    rw [List.mem_append, List.mem_singleton, not_or]
    exact ⟨h.live, hne.symm⟩
  have hnodup : (entries ++ [address]).Nodup := by
    rw [List.nodup_append]
    exact ⟨h.nodup, List.nodup_singleton address, fun a ha b hb heq =>
      hfresh (List.mem_singleton.mp hb ▸ heq ▸ ha)⟩
  have hchain : Seg (update q.next address 0) q.first entries 0 := h.chain.update hfresh
  rcases List.eq_nil_or_concat entries with rfl | ⟨l, a, rfl⟩
  · -- the first entry of an empty queue is its last one too
    have hlast : q.last = 0 := h.last_eq_zero_iff.mpr rfl
    have hpush : q.pushBack v address
        = { value := update q.value address v, next := update q.next address 0,
            first := address, last := address, size := q.size + 1 } := by
      simp [pushBack, Queue.push, hlast]
    rw [hpush]
    exact ⟨⟨rfl, update_self _ _ _⟩, hlive, hnodup, hvalues, rfl, by rw [h.size_eq]; rfl⟩
  · rw [List.concat_eq_append] at h hfresh hchain hvalues hlive hnodup ⊢
    have hlast : q.last = a := by rw [h.last_eq, List.getLastD_concat]
    have hane : a ≠ 0 := fun heq => h.live (heq ▸ List.mem_append_right l List.mem_cons_self)
    have hpush : q.pushBack v address
        = { value := update q.value address v,
            next := update (update q.next address 0) a address,
            first := q.first, last := address, size := q.size + 1 } := by
      simp [pushBack, Queue.push, hlast, hane]
    rw [hpush]
    have hal : a ∉ l := fun ha =>
      (List.nodup_append.mp h.nodup).2.2 a ha a List.mem_cons_self rfl
    have haddress : address ≠ a := fun heq =>
      hfresh (heq ▸ List.mem_append_right l List.mem_cons_self)
    refine ⟨(hchain.updateLast hal).append ⟨rfl, ?_⟩, hlive, hnodup, hvalues, ?_, ?_⟩
    · show update (update q.next address 0) a address address = 0
      rw [update_of_ne haddress, update_self]
    · exact List.getLastD_concat.symm
    · show q.size + 1 = _
      rw [h.size_eq]
      simp

/-- **The first entry is taken**, and the last pointer cleared with the last entry. -/
theorem Holds.pop {x : T} {rest : List T} (h : Holds q entries (x :: rest)) :
    ∃ q', q.popFront = some (x, q') ∧ Holds q' entries.tail rest := by
  obtain ⟨a, tail, rfl⟩ : ∃ a tail, entries = a :: tail := by
    cases entries with
    | nil => exact absurd h.values_eq (by simp)
    | cons a tail => exact ⟨a, tail, rfl⟩
  obtain ⟨hfirst, hrest⟩ := h.chain
  have hne : a ≠ 0 := fun heq => h.live (heq ▸ List.mem_cons_self)
  obtain ⟨hx, hvalues⟩ := List.cons.inj h.values_eq
  have hlive : 0 ∉ tail := fun hmem => h.live (List.mem_cons_of_mem a hmem)
  rw [popFront_of_ne hfirst hne, hx]
  refine ⟨_, rfl, hrest, hlive, (List.nodup_cons.mp h.nodup).2, hvalues, ?_, ?_⟩
  · show (if q.next a = 0 then 0 else q.last) = tail.getLastD 0
    cases tail with
    | nil => exact if_pos hrest
    | cons b tail =>
        have hb : q.next a ≠ 0 := fun heq => hlive (by rw [← heq, hrest.1]; exact List.mem_cons_self)
        rw [if_neg hb, h.last_eq]
        rfl
  · show q.size - 1 = tail.length
    rw [h.size_eq]
    rfl

/-! ## §3. Runs. -/

/-- The two operations. -/
inductive Op (T : Type) where
  | pushBack (value : T) (address : Nat)
  | popFront
  deriving Repr, DecidableEq

def exec (q : Queue T) : Op T → Option (Queue T)
  | .pushBack value address => some (q.pushBack value address)
  | .popFront => q.popFront.map Prod.snd

def Step (q : Queue T) (op : Op T) (q' : Queue T) : Prop := exec q op = some q'

/-- The allocator answers with an address that is no entry of the queue. -/
def Allocates (_ : List (Op T)) (q : Queue T) : Op T → Prop
  | .pushBack _ address => address ≠ 0 ∧ ∀ entries, Seg q.next q.first entries 0 → address ∉ entries
  | .popFront => True

/-- First in, first out; the operations are most recent first. -/
def fifo : List (Op T) → List T
  | [] => []
  | .pushBack value _ :: hist => fifo hist ++ [value]
  | .popFront :: hist => (fifo hist).tail

/-- **A run of the queue is a run of a list.** -/
theorem queue_refines_fifo {value : Nat → T} {next : Nat → Nat} {hist : List (Op T)}
    (hrun : GuardedRun Step Allocates (new value next) hist q) :
    ∃ entries, Holds q entries (fifo hist) := by
  refine hrun.historyInvariant (fun hist q => ∃ entries, Holds q entries (fifo hist))
    ⟨[], holds_new value next⟩ ?_
  rintro hist q op q' ⟨entries, h⟩ hallocates hst
  cases op with
  | pushBack value address =>
      obtain rfl : q.pushBack value address = q' := Option.some.inj hst
      exact ⟨_, h.push hallocates.1 (hallocates.2 entries h.chain)⟩
  | popFront =>
      obtain ⟨⟨x, q''⟩, hpop, rfl⟩ := Option.map_eq_some_iff.mp hst
      show ∃ entries, Holds q'' entries (fifo hist).tail
      cases hvalues : fifo hist with
      | nil =>
          -- an empty queue is not popped
          rw [hvalues] at h
          have hnil : entries = [] := List.map_eq_nil_iff.mp h.values_eq
          rw [hnil] at h
          have hnone : q.popFront = none := if_pos h.chain
          rw [hnone] at hpop
          exact absurd hpop (by simp)
      | cons y rest =>
          rw [hvalues] at h
          obtain ⟨q₁, hpop', hholds⟩ := h.pop
          rw [hpop] at hpop'
          obtain ⟨-, rfl⟩ := Prod.mk.inj (Option.some.inj hpop')
          exact ⟨_, hholds⟩

/-- Where the null pointer points to itself, a chain to it has no entries but its own. -/
theorem mem_of_seg {next : Nat → Nat} (hnull : next 0 = 0) {a : Nat} {l l' : List Nat}
    (h : Seg next a l 0) (h' : Seg next a l' 0) : ∀ x ∈ l', x ∈ l ∨ x = 0 := by
  induction l' generalizing a l with
  | nil => exact fun x hx => absurd hx List.not_mem_nil
  | cons b l' ih =>
      obtain ⟨rfl, hrest'⟩ := h'
      intro x hx
      cases l with
      | nil =>
          obtain rfl : a = 0 := h
          rcases List.mem_cons.mp hx with rfl | hx
          · exact Or.inr rfl
          · exact ih (l := []) hnull hrest' x hx
      | cons c l =>
          obtain ⟨rfl, hrest⟩ := h
          rcases List.mem_cons.mp hx with rfl | hx
          · exact Or.inl List.mem_cons_self
          · exact (ih hrest hrest' x hx).imp_left (List.mem_cons_of_mem _)

theorem Holds.allocates (h : Holds q entries values) (hnull : q.next 0 = 0) (hne : address ≠ 0)
    (hfresh : address ∉ entries) (hist : List (Op T)) : Allocates hist q (.pushBack v address) :=
  ⟨hne, fun _ hseg hmem => (mem_of_seg hnull h.chain hseg address hmem).elim hfresh hne⟩

/-- Two entries, of which the first is taken, and a third one where that was. -/
theorem queue_refines_fifo_reused :
    ∃ q q' : Queue Nat, (((new (fun _ => 0) fun _ => 0).pushBack 7 1).pushBack 8 2).popFront
        = some (7, q)
      ∧ q' = q.pushBack 9 1 ∧ ∃ entries, Holds q' entries [8, 9] := by
  have h₀ := holds_new (T := Nat) (fun _ => 0) fun _ => 0
  have h₁ := h₀.push (v := 7) (show 1 ≠ 0 by decide) List.not_mem_nil
  have h₂ := h₁.push (v := 8) (show 2 ≠ 0 by decide) (by decide)
  obtain ⟨q, hpop, h₃⟩ := h₂.pop
  have hnull : q.next 0 = 0 :=
    (Option.some.inj (congrArg (Option.map fun r => r.2.next 0) hpop)).symm
  have r₀ : GuardedRun Step Allocates (new (fun _ => 0) fun _ => (0 : Nat)) [] _ := .init
  have r₁ := r₀.step
    (h₀.allocates (v := 7) rfl (show 1 ≠ 0 by decide) List.not_mem_nil []) rfl
  have r₂ := r₁.step (h₁.allocates (v := 8) rfl (show 2 ≠ 0 by decide) (by decide) _) rfl
  have r₃ := r₂.step (show Allocates _ _ .popFront from trivial)
    (congrArg (Option.map Prod.snd) hpop)
  have r₄ := r₃.step (h₃.allocates (v := 9) hnull (show 1 ≠ 0 by decide) (by decide) _) rfl
  exact ⟨q, _, hpop, rfl, queue_refines_fifo r₄⟩

end Queue

end MierOS.Stdlib
