/-
  MierOS.Stdlib.RangeList
  **`std::RangeList`** of `kernel/std/include/range_list.hpp`: half-open ranges
  of an ordered type, in a list with two sentinels.

  `add` appends a range and then lets every range swallow what it touches, with
  two cursors in the list at once; `remove` shortens and erases ranges and STOPS
  at the first one it splits.  Stopping is right only if no later range meets
  what is removed.

  Three layers:

  * the loops on the links (§2), which refine
  * functions on the list of ranges (§3, §4: `absorb`, `mergeAll`, `cutOut`),
  * whose meaning is a set (§5): `denote`.

  `add` always unites.  It leaves ranges apart from each other when it finds
  them apart, and so does `remove` of a non-empty range; removing an EMPTY range
  from the middle of another leaves two that touch, and the next `add` may then
  miss an overlap (`overlap_survives_remove`).
-/
import MierOS.Lib.Run
import MierOS.Lib.TwoWay
import Mathlib.Data.Set.Finite.Basic
import Mathlib.Order.Interval.Set.Basic

namespace MierOS.Stdlib

open Lib Lib.Links
open Function (update update_eq_self update_of_ne update_self)

/-! ## §1. Ranges. -/

/-- `Range<T>`. -/
structure Range (T : Type) where
  start : T
  «end» : T
  deriving Repr, DecidableEq

/-- `RangeList<T>`: the links of all nodes and their ranges. -/
structure RangeList (T : Type) where
  next : NodePtr → NodePtr
  prev : NodePtr → NodePtr
  rang : NodePtr → Range T

namespace RangeList

variable {T : Type} [LinearOrder T]

/-! ## §2. The operations on the links. -/

def setNext (s : RangeList T) (r p : NodePtr) : RangeList T :=
  { s with next := update s.next r p }

def setPrev (s : RangeList T) (r p : NodePtr) : RangeList T :=
  { s with prev := update s.prev r p }

def setRang (s : RangeList T) (r : NodePtr) (rang : Range T) : RangeList T :=
  { s with rang := update s.rang r rang }

/-- `RangeList()`, in a memory that holds `rang`. -/
def empty (rang : NodePtr → Range T) : RangeList T where
  next := fun p => if p = .head then .tail else .null
  prev := fun p => if p = .tail then .head else .null
  rang := rang

/-- `delete_range(r)`, which answers with the node behind. -/
def deleteRange (s : RangeList T) (r : NodePtr) : NodePtr × RangeList T :=
  let s := s.setNext (s.prev r) (s.next r)
  let s := s.setPrev (s.next r) (s.prev r)
  (s.next r, s)

/-- What the three tests of `add` make of the result range, `none` when the ranges
are unrelated. -/
def merge (result merged : Range T) : Option (Range T) :=
  if merged.start ≥ result.start ∧ merged.start ≤ result.end then
    some (if merged.end > result.end then { result with «end» := merged.end } else result)
  else if merged.end ≥ result.start ∧ merged.end ≤ result.end then
    some { result with start := merged.start }
  else if merged.start ≤ result.start ∧ merged.end ≥ result.end then
    some merged
  else none

/-- The inner loop of `add`, from `mergedRange` on. -/
def mergeLoop (resultRange : NodePtr) : Nat → NodePtr → RangeList T → Option (RangeList T)
  | 0, _, _ => none
  | fuel + 1, mergedRange, s =>
      if mergedRange = .tail then some s
      else if resultRange = mergedRange then mergeLoop resultRange fuel (s.next mergedRange) s
      else
        match merge (s.rang resultRange) (s.rang mergedRange) with
        | some rang =>
            let (n, s) := (s.setRang resultRange rang).deleteRange mergedRange
            mergeLoop resultRange fuel n s
        | none => mergeLoop resultRange fuel (s.next mergedRange) s

/-- The outer loop of `add`, with `bound` steps for each inner one. -/
def addLoop (bound : Nat) : Nat → NodePtr → RangeList T → Option (RangeList T)
  | 0, _, _ => none
  | fuel + 1, resultRange, s =>
      if resultRange = .tail then some s
      else do
        let s ← mergeLoop resultRange bound (s.next .head) s
        addLoop bound fuel (s.next resultRange) s

/-- `add(start, end)`; the allocator answers with the node at `address`. -/
def add (s : RangeList T) (start «end» : T) (address fuel : Nat) : Option (RangeList T) :=
  let inserted := NodePtr.entry address
  let s := s.setRang inserted ⟨start, «end»⟩
  let s := s.setNext inserted .tail
  let s := s.setPrev inserted (s.prev .tail)
  let s := s.setNext (s.prev .tail) inserted
  let s := s.setPrev .tail inserted
  addLoop fuel fuel (s.next .head) s

/-- The loop of `remove`, from `r` on. -/
def removeLoop (start «end» : T) (address : Nat) :
    Nat → NodePtr → RangeList T → Option (RangeList T)
  | 0, _, _ => none
  | fuel + 1, r, s =>
      if r = .tail then some s
      else
        let rang := s.rang r
        if start ≤ rang.start ∧ «end» ≥ rang.end then
          -- the whole range goes
          let (n, s) := s.deleteRange r
          removeLoop start «end» address fuel n s
        else
          let startBound := start ≥ rang.start ∧ start < rang.end
          let endBound := «end» ≥ rang.start ∧ «end» < rang.end
          if startBound ∧ ¬ endBound then
            let s := s.setRang r { rang with «end» := start }
            removeLoop start «end» address fuel (s.next r) s
          else if ¬ startBound ∧ endBound then
            let s := s.setRang r { rang with start := «end» }
            removeLoop start «end» address fuel (s.next r) s
          else if startBound ∧ endBound then
            -- split in the middle, and stop
            let firstHalf := NodePtr.entry address
            let s := s.setRang firstHalf ⟨rang.start, start⟩
            let s := s.setPrev firstHalf (s.prev r)
            let s := s.setNext firstHalf r
            let s := s.setNext (s.prev r) firstHalf
            let s := s.setPrev r firstHalf
            some (s.setRang r { rang with start := «end» })
          else removeLoop start «end» address fuel (s.next r) s

/-- `remove(start, end)`; the allocator answers with the node at `address`, should a
range be split. -/
def remove (s : RangeList T) (start «end» : T) (address fuel : Nat) : Option (RangeList T) :=
  removeLoop start «end» address fuel (s.next .head) s

/-- The loop of `clear` that frees the nodes from `r` on. -/
def clearLoop (s : RangeList T) : Nat → NodePtr → Option Unit
  | 0, _ => none
  | fuel + 1, r => if r = .tail then some () else clearLoop s fuel (s.next r)

/-- `clear()`. -/
def clear (s : RangeList T) (fuel : Nat) : Option (RangeList T) :=
  (s.clearLoop fuel (s.next .head)).map fun _ =>
    let s := s.setNext .head .tail
    s.setPrev .tail .head

/-- The loop of `is_bound`, from `r` on. -/
def isBoundLoop (s : RangeList T) (value : T) : Nat → NodePtr → Option Bool
  | 0, _ => none
  | fuel + 1, r =>
      if r = .tail then some false
      else if value ≥ (s.rang r).start ∧ value < (s.rang r).end then some true
      else isBoundLoop s value fuel (s.next r)

/-- `is_bound(value)`. -/
def isBound (s : RangeList T) (value : T) (fuel : Nat) : Option Bool :=
  s.isBoundLoop value fuel (s.next .head)

/-! ## §3. What touches. -/

/-- The range does not end before it starts. -/
def Ordered (r : Range T) : Prop := r.start ≤ r.end

/-- Neither range lies entirely before the other. -/
def Touch (a b : Range T) : Prop := a.start ≤ b.end ∧ b.start ≤ a.end

instance (a b : Range T) : Decidable (Touch a b) := inferInstanceAs (Decidable (_ ∧ _))

/-- From the lower start to the higher end. -/
def hull (a b : Range T) : Range T := ⟨min a.start b.start, max a.end b.end⟩

theorem Touch.symm {a b : Range T} (h : Touch a b) : Touch b a := ⟨h.2, h.1⟩

theorem Ordered.hull {a b : Range T} (ha : Ordered a) : Ordered (hull a b) :=
  le_trans (min_le_left _ _) (le_trans ha (le_max_left _ _))

/-- **The three tests of `add`** succeed on ranges that touch, and make the hull. -/
theorem merge_eq {result merged : Range T} (hr : Ordered result) (hm : Ordered merged) :
    merge result merged = if Touch result merged then some (hull result merged) else none := by
  obtain ⟨rs, re⟩ := result
  obtain ⟨ms, me⟩ := merged
  unfold Ordered at hr hm
  unfold merge Touch hull
  grind

/-- What is apart from both of two touching ranges is apart from their hull. -/
theorem not_touch_hull {a b y : Range T} (hab : Touch a b) (ha : ¬ Touch y a) (hb : ¬ Touch y b)
    (hyo : Ordered y) : ¬ Touch y (hull a b) := by
  unfold Touch Ordered hull at *
  grind

/-- **Half-open ranges that touch** fill their hull. -/
theorem mem_hull_iff {a b : Range T} (hab : Touch a b) (v : T) :
    ((hull a b).start ≤ v ∧ v < (hull a b).end)
      ↔ (a.start ≤ v ∧ v < a.end) ∨ (b.start ≤ v ∧ v < b.end) := by
  unfold Touch hull at *
  grind

/-! ## §4. The same on lists of ranges. -/

/-- One range passes over others and swallows what it touches. -/
def absorb (result : Range T) : List (Range T) → Range T × List (Range T)
  | [] => (result, [])
  | m :: ms =>
      match merge result m with
      | some rang => absorb rang ms
      | none => ((absorb result ms).1, m :: (absorb result ms).2)

theorem absorb_some {result m rang : Range T} {ms : List (Range T)}
    (h : merge result m = some rang) : absorb result (m :: ms) = absorb rang ms := by
  rw [absorb, h]

theorem absorb_none {result m : Range T} {ms : List (Range T)} (h : merge result m = none) :
    absorb result (m :: ms) = ((absorb result ms).1, m :: (absorb result ms).2) := by
  rw [absorb, h]

theorem absorb_sublist (ms : List (Range T)) : ∀ result, ((absorb result ms).2).Sublist ms := by
  induction ms with
  | nil => intro result; exact List.Sublist.slnil
  | cons m ms ih =>
      intro result
      unfold absorb
      cases merge result m with
      | some rang => exact (ih rang).cons m
      | none => exact (ih result).cons_cons m

/-- Every range of `rest` in turn passes over all the others. -/
def mergeAll (done : List (Range T)) : List (Range T) → List (Range T)
  | [] => done
  | result :: rest =>
      let before := absorb result done
      let behind := absorb before.1 rest
      mergeAll (before.2 ++ [behind.1]) behind.2
  termination_by rest => rest.length
  decreasing_by
    have hle := (absorb_sublist rest (absorb result done).1).length_le
    simp only [List.length_cons]
    omega

/-- Cut `[start, end)` out, up to the first range that is split. -/
def cutOut (start «end» : T) : List (Range T) → List (Range T)
  | [] => []
  | r :: rs =>
      if start ≤ r.start ∧ «end» ≥ r.end then cutOut start «end» rs
      else
        let startBound := start ≥ r.start ∧ start < r.end
        let endBound := «end» ≥ r.start ∧ «end» < r.end
        if startBound ∧ ¬ endBound then { r with «end» := start } :: cutOut start «end» rs
        else if ¬ startBound ∧ endBound then { r with start := «end» } :: cutOut start «end» rs
        else if startBound ∧ endBound then ⟨r.start, start⟩ :: { r with start := «end» } :: rs
        else r :: cutOut start «end» rs

/-! ## §5. What a list of ranges denotes. -/

/-- The values in some range. -/
def denote (l : List (Range T)) : Set T := { v | ∃ r ∈ l, r.start ≤ v ∧ v < r.end }

/-- Every range is ordered. -/
def AllOrdered (l : List (Range T)) : Prop := ∀ r ∈ l, Ordered r

/-- No two ranges touch. -/
def Apart (l : List (Range T)) : Prop := l.Pairwise fun a b => ¬ Touch a b

variable {a b l l' : List (Range T)} {result r : Range T} {start «end» : T}

theorem mem_denote_append (v : T) : v ∈ denote (a ++ b) ↔ v ∈ denote a ∨ v ∈ denote b := by
  unfold denote
  simp only [Set.mem_ofPred_eq, List.mem_append, or_and_right, exists_or]

theorem mem_denote_cons (v : T) :
    v ∈ denote (r :: l) ↔ (r.start ≤ v ∧ v < r.end) ∨ v ∈ denote l := by
  unfold denote
  simp only [Set.mem_ofPred_eq, List.mem_cons, or_and_right, exists_or, exists_eq_left]

/-- **A pass changes no value's membership.** -/
theorem absorb_denote (ms : List (Range T)) : ∀ {result : Range T}, Ordered result →
    AllOrdered ms → Ordered (absorb result ms).1 ∧ AllOrdered (absorb result ms).2
      ∧ ∀ v, v ∈ denote ((absorb result ms).1 :: (absorb result ms).2) ↔ v ∈ denote (result :: ms) := by
  induction ms with
  | nil => intro result hr hms; exact ⟨hr, hms, fun _ => Iff.rfl⟩
  | cons m ms ih =>
      intro result hr hms
      have hm := hms m List.mem_cons_self
      have hrest : AllOrdered ms := fun x hx => hms x (List.mem_cons_of_mem m hx)
      unfold absorb
      rw [merge_eq hr hm]
      by_cases htouch : Touch result m
      · rw [if_pos htouch]
        obtain ⟨hr', hms', hiff⟩ := ih hr.hull hrest
        refine ⟨hr', hms', fun v => (hiff v).trans ?_⟩
        rw [mem_denote_cons, mem_denote_cons, mem_denote_cons, mem_hull_iff htouch, or_assoc]
      · rw [if_neg htouch]
        obtain ⟨hr', hms', hiff⟩ := ih hr hrest
        refine ⟨hr', fun x hx => ?_, fun v => ?_⟩
        · rcases List.mem_cons.mp hx with rfl | hx
          · exact hm
          · exact hms' x hx
        · have hv := hiff v
          rw [mem_denote_cons, mem_denote_cons] at hv
          rw [mem_denote_cons, mem_denote_cons, mem_denote_cons, mem_denote_cons, or_left_comm, hv,
            or_left_comm]

theorem mergeAll_nil (done : List (Range T)) : mergeAll done [] = done := by
  rw [mergeAll]

theorem mergeAll_cons (done rest : List (Range T)) (result : Range T) :
    mergeAll done (result :: rest)
      = mergeAll ((absorb result done).2 ++ [(absorb (absorb result done).1 rest).1])
          (absorb (absorb result done).1 rest).2 := by
  rw [mergeAll]

theorem AllOrdered.concat (hl : AllOrdered l) (hr : Ordered r) : AllOrdered (l ++ [r]) := by
  intro x hx
  rcases List.mem_append.mp hx with hx | hx
  · exact hl x hx
  · rw [List.mem_singleton.mp hx]
    exact hr

/-- **The induction over the outer loop of `add`**: what a step keeps holds when the
loop is over. -/
theorem mergeAll_induction {I : List (Range T) → List (Range T) → Prop}
    (hstep : ∀ done result rest, I done (result :: rest) →
      I ((absorb result done).2 ++ [(absorb (absorb result done).1 rest).1])
        (absorb (absorb result done).1 rest).2) :
    ∀ (n : Nat) (done rest : List (Range T)), rest.length ≤ n → I done rest →
      I (mergeAll done rest) [] := by
  intro n
  induction n with
  | zero =>
      intro done rest hlen hI
      have hrest : rest = [] := List.eq_nil_of_length_eq_zero (Nat.le_zero.mp hlen)
      subst hrest
      rw [mergeAll_nil]
      exact hI
  | succ n ih =>
      intro done rest hlen hI
      cases rest with
      | nil =>
          rw [mergeAll_nil]
          exact hI
      | cons result rest =>
          have hle := (absorb_sublist rest (absorb result done).1).length_le
          rw [List.length_cons] at hlen
          rw [mergeAll_cons]
          exact ih _ _ (by omega) (hstep done result rest hI)

/-- **`add` unites**, whatever the ranges are. -/
theorem mergeAll_denote {done rest : List (Range T)} (hdone : AllOrdered done)
    (hrest : AllOrdered rest) :
    AllOrdered (mergeAll done rest)
      ∧ ∀ v, v ∈ denote (mergeAll done rest) ↔ v ∈ denote done ∨ v ∈ denote rest := by
  have hnil : ∀ v : T, v ∉ denote ([] : List (Range T)) := fun v => by simp [denote]
  have hloop := mergeAll_induction
    (I := fun done' rest' => AllOrdered done' ∧ AllOrdered rest'
      ∧ ∀ v, v ∈ denote done' ∨ v ∈ denote rest' ↔ v ∈ denote done ∨ v ∈ denote rest) (by
      intro done' result rest' ⟨hdone', hcons, hiff⟩
      have hr := hcons result List.mem_cons_self
      have hrest' : AllOrdered rest' := fun x hx => hcons x (List.mem_cons_of_mem result hx)
      obtain ⟨hr₁, hbefore, hv₁⟩ := absorb_denote done' hr hdone'
      obtain ⟨hr₂, hbehind, hv₂⟩ := absorb_denote rest' hr₁ hrest'
      refine ⟨hbefore.concat hr₂, hbehind, fun v => ?_⟩
      have h₁ := hv₁ v
      have h₂ := hv₂ v
      have hv := hiff v
      rw [mem_denote_cons, mem_denote_cons] at h₁ h₂
      rw [mem_denote_cons] at hv
      rw [mem_denote_append, mem_denote_cons]
      have hnot := hnil v
      grind)
    rest.length done rest (Nat.le_refl _) ⟨hdone, hrest, fun _ => Iff.rfl⟩
  obtain ⟨hall, -, hiff⟩ := hloop
  exact ⟨hall, fun v => (by simp [hnil v] : _ ↔ _ ∨ _).trans (hiff v)⟩

/-! ## §6. Ranges apart from each other. -/

/-- A range that touches none of the others swallows none. -/
theorem absorb_of_apart (hr : Ordered result) (hl : AllOrdered l)
    (hapart : ∀ m ∈ l, ¬ Touch result m) : absorb result l = (result, l) := by
  induction l with
  | nil => rfl
  | cons m l ih =>
      have hm := hapart m List.mem_cons_self
      unfold absorb
      rw [merge_eq hr (hl m List.mem_cons_self), if_neg hm]
      rw [ih (fun x hx => hl x (List.mem_cons_of_mem m hx))
        fun x hx => hapart x (List.mem_cons_of_mem m hx)]

/-- What is apart from all the ranges of a pass is apart from its result. -/
theorem absorb_far {y : Range T} (hy : Ordered y) (ms : List (Range T)) :
    ∀ {result : Range T}, Ordered result → AllOrdered ms → ¬ Touch y result →
    (∀ m ∈ ms, ¬ Touch y m) → ¬ Touch y (absorb result ms).1 := by
  induction ms with
  | nil => intro result _ _ hyr _; exact hyr
  | cons m ms ih =>
      intro result hr hms hyr hyms
      have hm := hms m List.mem_cons_self
      have hrest : AllOrdered ms := fun x hx => hms x (List.mem_cons_of_mem m hx)
      have hyrest : ∀ x ∈ ms, ¬ Touch y x := fun x hx => hyms x (List.mem_cons_of_mem m hx)
      unfold absorb
      rw [merge_eq hr hm]
      by_cases htouch : Touch result m
      · rw [if_pos htouch]
        exact ih hr.hull hrest
          (not_touch_hull htouch hyr (hyms m List.mem_cons_self) hy) hyrest
      · rw [if_neg htouch]
        exact ih hr hrest hyr hyrest

theorem absorb_append (l l' : List (Range T)) : ∀ result : Range T,
    absorb result (l ++ l') = ((absorb (absorb result l).1 l').1,
      (absorb result l).2 ++ (absorb (absorb result l).1 l').2) := by
  induction l with
  | nil => intro result; rfl
  | cons m l ih =>
      intro result
      rw [List.cons_append]
      cases hmerge : merge result m with
      | some rang => rw [absorb_some hmerge, absorb_some hmerge, ih rang]
      | none => rw [absorb_none hmerge, absorb_none hmerge, ih result, List.cons_append]

/-- A pass over ranges of which only `g` can be touched. -/
theorem absorb_mid {g : Range T} (hr : Ordered result) (hg : Ordered g) (ha : AllOrdered a)
    (hb : AllOrdered b) (hrfar : ∀ m ∈ a ++ b, ¬ Touch m result)
    (hgfar : ∀ m ∈ a ++ b, ¬ Touch m g) :
    absorb result (a ++ g :: b)
      = if Touch result g then (hull result g, a ++ b) else (result, a ++ g :: b) := by
  rw [absorb_append, absorb_of_apart hr ha fun m hm htouch =>
    hrfar m (List.mem_append_left b hm) htouch.symm]
  show ((absorb result (g :: b)).1, a ++ (absorb result (g :: b)).2) = _
  unfold absorb
  rw [merge_eq hr hg]
  by_cases htouch : Touch result g
  · rw [if_pos htouch, if_pos htouch]
    show ((absorb (hull result g) b).1, a ++ (absorb (hull result g) b).2) = _
    rw [absorb_of_apart hr.hull hb fun m hm h =>
      have hmem := List.mem_append_right a hm
      not_touch_hull htouch (hrfar m hmem) (hgfar m hmem) (hb m hm) h.symm]
  · rw [if_neg htouch, if_neg htouch]
    show ((absorb result b).1, a ++ g :: (absorb result b).2) = _
    rw [absorb_of_apart hr hb fun m hm h => hrfar m (List.mem_append_right a hm) h.symm]

/-- **While `add` works**, only one range touches others: the new one, as long as it
waits at the end, or the one that has swallowed it. -/
structure OneOff (done rest : List (Range T)) : Prop where
  done_ordered : AllOrdered done
  rest_ordered : AllOrdered rest
  apart : Apart done
  others : (∃ rs n, rest = rs ++ [n] ∧ Apart (done ++ rs) ∧ ∀ y ∈ done, ¬ Touch y n)
    ∨ ∃ d₁ g d₂, done = d₁ ++ g :: d₂ ∧ Apart (d₁ ++ d₂ ++ rest)

theorem Apart.concat (hl : Apart l) (hfar : ∀ y ∈ l, ¬ Touch y r) : Apart (l ++ [r]) := by
  refine List.pairwise_append.mpr ⟨hl, List.pairwise_singleton _ _, fun y hy x hx => ?_⟩
  rw [List.mem_singleton.mp hx]
  exact hfar y hy

/-- In a list without touching ranges, what stands before is apart from what follows. -/
theorem Apart.far (h : Apart (a ++ r :: b)) :
    (∀ y ∈ a, ¬ Touch y r) ∧ (∀ y ∈ b, ¬ Touch y r) := by
  obtain ⟨-, hcons, hcross⟩ := List.pairwise_append.mp h
  exact ⟨fun y hy => hcross y hy r List.mem_cons_self,
    fun y hy htouch => (List.pairwise_cons.mp hcons).1 y hy htouch.symm⟩

theorem OneOff.step {done rest : List (Range T)} (h : OneOff done (result :: rest)) :
    OneOff ((absorb result done).2 ++ [(absorb (absorb result done).1 rest).1])
      (absorb (absorb result done).1 rest).2 := by
  have hr := h.rest_ordered result List.mem_cons_self
  have hrest : AllOrdered rest := fun x hx => h.rest_ordered x (List.mem_cons_of_mem result hx)
  obtain ⟨hr₁, hbefore, -⟩ := absorb_denote done hr h.done_ordered
  obtain ⟨hr₂, hbehind, -⟩ := absorb_denote rest hr₁ hrest
  rcases h.others with ⟨rs, n, hsplit, hapart, hn⟩ | ⟨d₁, g, d₂, rfl, hapart⟩
  · -- the new range still waits
    cases rs with
    | nil =>
        obtain ⟨rfl, rfl⟩ := List.cons.inj hsplit
        rw [absorb_of_apart hr h.done_ordered fun m hm htouch => hn m hm htouch.symm]
        have hdone' := h.apart.concat hn
        refine ⟨h.done_ordered.concat hr, hrest, hdone', Or.inr ⟨done, result, [], rfl, ?_⟩⟩
        simpa [absorb] using h.apart
    | cons r rs =>
        rw [List.cons_append] at hsplit
        obtain ⟨rfl, rfl⟩ := List.cons.inj hsplit
        obtain ⟨hbeforefar, hbehindfar⟩ := hapart.far
        have hn' : Ordered n := hrest n (by simp)
        have hrs : AllOrdered rs := fun x hx => hrest x (List.mem_append_left _ hx)
        rw [absorb_of_apart hr h.done_ordered fun m hm htouch => hbeforefar m hm htouch.symm,
          absorb_append, absorb_of_apart hr hrs fun m hm htouch => hbehindfar m hm htouch.symm]
        have hdone' : Apart (done ++ [result]) := h.apart.concat hbeforefar
        by_cases htouch : Touch result n
        · -- and is swallowed now
          rw [absorb_some (by rw [merge_eq hr hn', if_pos htouch])]
          refine ⟨h.done_ordered.concat hr.hull, by simpa [absorb] using hrs, ?_,
            Or.inr ⟨done, hull result n, [], rfl, ?_⟩⟩
          · exact h.apart.concat fun y hy => not_touch_hull htouch (hbeforefar y hy) (hn y hy)
              (h.done_ordered y hy)
          · refine List.Pairwise.sublist ?_ hapart
            simp [absorb]
        · rw [absorb_none (by rw [merge_eq hr hn', if_neg htouch])]
          refine ⟨h.done_ordered.concat hr, by simpa [absorb] using hrest, hdone',
            Or.inl ⟨rs, n, by simp [absorb], by simpa [absorb] using hapart, ?_⟩⟩
          intro y hy
          rcases List.mem_append.mp hy with hy | hy
          · exact hn y hy
          · rw [List.mem_singleton.mp hy]
            exact htouch
  · -- `g` has swallowed it
    have hd₁ : AllOrdered d₁ := fun x hx => h.done_ordered x (List.mem_append_left _ hx)
    have hd₂ : AllOrdered d₂ := fun x hx =>
      h.done_ordered x (List.mem_append_right _ (List.mem_cons_of_mem g hx))
    have hg : Ordered g := h.done_ordered g (by simp)
    obtain ⟨hrfar, hrestfar⟩ := hapart.far
    have hgfar := h.apart.far
    have hgfar' : ∀ m ∈ d₁ ++ d₂, ¬ Touch m g := fun m hm =>
      (List.mem_append.mp hm).elim (hgfar.1 m) (hgfar.2 m)
    have hmid := absorb_mid hr hg hd₁ hd₂ hrfar hgfar'
    have hothers : AllOrdered (d₁ ++ d₂) := fun x hx =>
      (List.mem_append.mp hx).elim (hd₁ x) (hd₂ x)
    by_cases htouch : Touch result g
    · rw [if_pos htouch] at hmid
      rw [hmid] at hbefore hr₁ hr₂ hbehind ⊢
      have hapart' := (List.pairwise_append.mp hapart).1
      have hcross := (List.pairwise_append.mp hapart).2.2
      refine ⟨hbefore.concat hr₂, hbehind, ?_, Or.inr ⟨d₁ ++ d₂, _, [], rfl, ?_⟩⟩
      · refine Apart.concat hapart' fun y hy => ?_
        exact absorb_far (hothers y hy) rest hr₁ hrest
          (not_touch_hull htouch (hrfar y hy) (hgfar' y hy) (hothers y hy))
          fun m hm => hcross y hy m (List.mem_cons_of_mem result hm)
      · refine List.Pairwise.sublist ?_ hapart
        rw [List.append_nil]
        exact (List.Sublist.refl _).append
          (((absorb_sublist rest _).cons result))
    · rw [if_neg htouch] at hmid
      rw [hmid, absorb_of_apart hr hrest fun m hm htouch => hrestfar m hm htouch.symm]
      refine ⟨h.done_ordered.concat hr, hrest, ?_, Or.inr ⟨d₁, g, d₂ ++ [result], by simp, ?_⟩⟩
      · refine h.apart.concat fun y hy => ?_
        rcases List.mem_append.mp hy with hy | hy
        · exact hrfar y (List.mem_append_left d₂ hy)
        · rcases List.mem_cons.mp hy with rfl | hy
          · exact fun htouch' => htouch htouch'.symm
          · exact hrfar y (List.mem_append_right d₁ hy)
      · simpa using hapart

/-- **`add` leaves no touching ranges behind**, if there were none. -/
theorem Apart.mergeAll (hl : AllOrdered l) (hapart : Apart l) (hr : Ordered r) :
    Apart (mergeAll [] (l ++ [r])) := by
  have hloop := mergeAll_induction (I := OneOff) (fun _ _ _ h => h.step) _ [] (l ++ [r])
    (Nat.le_refl _)
    ⟨by simp [AllOrdered], hl.concat hr, List.Pairwise.nil,
      Or.inl ⟨l, r, rfl, by simpa using hapart, by simp⟩⟩
  exact hloop.apart

/-! ## §7. What `remove` misses. -/

/-- A value of the range lies in `[start, end)`. -/
def Meets (start «end» : T) (r : Range T) : Prop := max start r.start < min «end» r.end

/-- Behind the range that is split, where `remove` stops, no other range meets what
is removed. -/
def SplitsLast (start «end» : T) : List (Range T) → Prop
  | [] => True
  | r :: rs =>
      if start ≤ r.start ∧ «end» ≥ r.end then SplitsLast start «end» rs
      else if (start ≥ r.start ∧ start < r.end) ∧ («end» ≥ r.start ∧ «end» < r.end) then
        ∀ x ∈ rs, ¬ Meets start «end» x
      else SplitsLast start «end» rs

/-- One range under `remove`: what is left of it, and whether the loop goes on. -/
def cutOne (start «end» : T) (r : Range T) : List (Range T) × Bool :=
  if start ≤ r.start ∧ «end» ≥ r.end then ([], true)
  else
    let startBound := start ≥ r.start ∧ start < r.end
    let endBound := «end» ≥ r.start ∧ «end» < r.end
    if startBound ∧ ¬ endBound then ([{ r with «end» := start }], true)
    else if ¬ startBound ∧ endBound then ([{ r with start := «end» }], true)
    else if startBound ∧ endBound then ([⟨r.start, start⟩, { r with start := «end» }], false)
    else ([r], true)

theorem cutOut_cons (start «end» : T) (r : Range T) (rs : List (Range T)) :
    cutOut start «end» (r :: rs)
      = (cutOne start «end» r).1
        ++ if (cutOne start «end» r).2 then cutOut start «end» rs else rs := by
  unfold cutOut cutOne
  grind [cutOut]

theorem splitsLast_cons (start «end» : T) (r : Range T) (rs : List (Range T)) :
    SplitsLast start «end» (r :: rs)
      ↔ if (cutOne start «end» r).2 then SplitsLast start «end» rs
        else ∀ x ∈ rs, ¬ Meets start «end» x := by
  unfold SplitsLast cutOne
  grind [SplitsLast]

/-- **The five cases of one range.** -/
theorem cutOne_cases (hle : start ≤ «end») (r : Range T) :
    (start ≤ r.start ∧ r.end ≤ «end» ∧ cutOne start «end» r = ([], true))
      ∨ (r.start ≤ start ∧ start < r.end ∧ r.end ≤ «end»
          ∧ cutOne start «end» r = ([⟨r.start, start⟩], true))
      ∨ (start < r.start ∧ r.start ≤ «end» ∧ «end» < r.end
          ∧ cutOne start «end» r = ([⟨«end», r.end⟩], true))
      ∨ (r.start ≤ start ∧ «end» < r.end
          ∧ cutOne start «end» r = ([⟨r.start, start⟩, ⟨«end», r.end⟩], false))
      ∨ ((«end» < r.start ∨ r.end ≤ start) ∧ cutOne start «end» r = ([r], true)) := by
  by_cases hwhole : start ≤ r.start ∧ «end» ≥ r.end
  · exact Or.inl ⟨hwhole.1, hwhole.2, by rw [cutOne, if_pos hwhole]⟩
  right
  by_cases hstart : start ≥ r.start ∧ start < r.end
  · by_cases hend : «end» ≥ r.start ∧ «end» < r.end
    · right; right; left
      exact ⟨hstart.1, hend.2, by simp [cutOne, hwhole, hstart, hend]⟩
    · left
      exact ⟨hstart.1, hstart.2, by grind, by simp [cutOne, hwhole, hstart, hend]⟩
  · by_cases hend : «end» ≥ r.start ∧ «end» < r.end
    · right; left
      exact ⟨by grind, hend.1, hend.2, by simp [cutOne, hwhole, hstart, hend]⟩
    · right; right; right
      exact ⟨by grind, by simp [cutOne, hwhole, hstart, hend]⟩

/-- **What is left of one range** is exactly what lies outside. -/
theorem mem_cutOne (hle : start ≤ «end») (r : Range T) (v : T) :
    v ∈ denote (cutOne start «end» r).1
      ↔ (r.start ≤ v ∧ v < r.end) ∧ ¬ (start ≤ v ∧ v < «end») := by
  have hnil : v ∉ denote ([] : List (Range T)) := by simp [denote]
  obtain ⟨hs, he, heq⟩ | ⟨hs, hs', he, heq⟩ | ⟨hs, he, he', heq⟩ | ⟨hs, he, heq⟩ | ⟨hout, heq⟩ :=
    cutOne_cases hle r
  all_goals
    rw [heq]
    simp only [mem_denote_cons]
    grind

/-- What is left of one range lies within it, in order. -/
theorem cutOne_within (hle : start ≤ «end») (hr : Ordered r) : ∀ x ∈ (cutOne start «end» r).1,
    Ordered x ∧ r.start ≤ x.start ∧ x.end ≤ r.end := by
  unfold Ordered
  obtain ⟨hs, he, heq⟩ | ⟨hs, hs', he, heq⟩ | ⟨hs, he, he', heq⟩ | ⟨hs, he, heq⟩ | ⟨hout, heq⟩ :=
    cutOne_cases hle r
  all_goals
    unfold Ordered at hr
    rw [heq]
    grind

/-- The halves of a range around a non-empty one do not touch. -/
theorem cutOne_apart (hlt : start < «end») (r : Range T) : Apart (cutOne start «end» r).1 := by
  unfold Apart Touch
  obtain ⟨hs, he, heq⟩ | ⟨hs, hs', he, heq⟩ | ⟨hs, he, he', heq⟩ | ⟨hs, he, heq⟩ | ⟨hout, heq⟩ :=
    cutOne_cases hlt.le r
  all_goals
    rw [heq]
    grind

theorem meets_iff (x : Range T) :
    Meets start «end» x ↔ ∃ v, (x.start ≤ v ∧ v < x.end) ∧ start ≤ v ∧ v < «end» := by
  unfold Meets
  constructor
  · intro h
    exact ⟨max start x.start, ⟨le_max_right _ _, lt_of_lt_of_le h (min_le_right _ _)⟩,
      le_max_left _ _, lt_of_lt_of_le h (min_le_left _ _)⟩
  · intro ⟨v, ⟨hxs, hxe⟩, hs, he⟩
    exact lt_of_le_of_lt (max_le hs hxs) (lt_min he hxe)

/-- **Outside of what is removed** nothing changes. -/
theorem cutOut_outside (hle : start ≤ «end») {v : T} (hout : ¬ (start ≤ v ∧ v < «end»)) :
    ∀ l : List (Range T), v ∈ denote (cutOut start «end» l) ↔ v ∈ denote l := by
  intro l
  induction l with
  | nil => rfl
  | cons r rs ih =>
      rw [cutOut_cons, mem_denote_append, mem_denote_cons, mem_cutOne hle r v, and_iff_left hout]
      cases (cutOne start «end» r).2 with
      | true => rw [if_pos rfl, ih]
      | false => rfl

/-- **Inside** nothing is left exactly when no range behind the split meets it. -/
theorem cutOut_inside (hle : start ≤ «end») : ∀ l : List (Range T),
    (∀ v, start ≤ v ∧ v < «end» → v ∉ denote (cutOut start «end» l))
      ↔ SplitsLast start «end» l := by
  intro l
  induction l with
  | nil => simp [cutOut, SplitsLast, denote]
  | cons r rs ih =>
      have hskip : ∀ v, start ≤ v ∧ v < «end» → v ∉ denote (cutOne start «end» r).1 :=
        fun v hin hmem => ((mem_cutOne hle r v).mp hmem).2 hin
      rw [cutOut_cons, splitsLast_cons]
      simp only [mem_denote_append, not_or]
      cases (cutOne start «end» r).2 with
      | true =>
          rw [if_pos rfl, if_pos rfl, ← ih]
          exact ⟨fun h v hin => (h v hin).2, fun h v hin => ⟨hskip v hin, h v hin⟩⟩
      | false =>
          rw [if_neg (by decide), if_neg (by decide)]
          constructor
          · intro h x hx hmeets
            obtain ⟨v, hxv, hin⟩ := (meets_iff x).mp hmeets
            exact (h v hin).2 ⟨x, hx, hxv⟩
          · intro h v hin
            refine ⟨hskip v hin, fun hv => ?_⟩
            obtain ⟨x, hx, hxv⟩ := hv
            exact h x hx ((meets_iff x).mpr ⟨v, hxv, hin⟩)

/-- **`remove` takes out what it should exactly when nothing that meets it stands behind
the split.** -/
theorem cutOut_denote_iff (hle : start ≤ «end») (l : List (Range T)) :
    ((∀ v, v ∈ denote (cutOut start «end» l) ↔ v ∈ denote l ∧ ¬ (start ≤ v ∧ v < «end»))
      ↔ SplitsLast start «end» l) := by
  rw [← cutOut_inside hle l]
  constructor
  · intro h v hin hmem
    exact ((h v).mp hmem).2 hin
  · intro h v
    by_cases hin : start ≤ v ∧ v < «end»
    · exact iff_of_false (h v hin) fun hv => hv.2 hin
    · rw [cutOut_outside hle hin l, and_iff_left hin]

/-- What is left lies within the ranges, in order. -/
theorem cutOut_within (hle : start ≤ «end») : ∀ {l : List (Range T)}, AllOrdered l →
    ∀ x ∈ cutOut start «end» l, Ordered x ∧ ∃ r ∈ l, r.start ≤ x.start ∧ x.end ≤ r.end := by
  intro l
  induction l with
  | nil => intro _ x hx; exact absurd hx List.not_mem_nil
  | cons r rs ih =>
      intro hl x hx
      have hrs : AllOrdered rs := fun y hy => hl y (List.mem_cons_of_mem r hy)
      rw [cutOut_cons, List.mem_append] at hx
      rcases hx with hx | hx
      · obtain ⟨hord, hwithin⟩ := cutOne_within hle (hl r List.mem_cons_self) x hx
        exact ⟨hord, r, List.mem_cons_self, hwithin⟩
      · cases hon : (cutOne start «end» r).2 with
        | true =>
            rw [hon, if_pos rfl] at hx
            obtain ⟨hord, y, hy, hwithin⟩ := ih hrs x hx
            exact ⟨hord, y, List.mem_cons_of_mem r hy, hwithin⟩
        | false =>
            rw [hon, if_neg (by decide)] at hx
            exact ⟨hrs x hx, x, List.mem_cons_of_mem r hx, le_refl _, le_refl _⟩

/-- **Removing a non-empty range** leaves no touching ranges behind, if there were none. -/
theorem Apart.cutOut (hlt : start < «end») : ∀ {l : List (Range T)}, AllOrdered l → Apart l →
    Apart (cutOut start «end» l) := by
  intro l
  induction l with
  | nil => intro _ hapart; exact hapart
  | cons r rs ih =>
      intro hl hapart
      have hr := hl r List.mem_cons_self
      have hrs : AllOrdered rs := fun y hy => hl y (List.mem_cons_of_mem r hy)
      obtain ⟨hfar, hapart'⟩ := List.pairwise_cons.mp hapart
      rw [cutOut_cons]
      refine List.pairwise_append.mpr ⟨cutOne_apart hlt r, ?_, fun x hx y hy htouch => ?_⟩
      · cases (cutOne start «end» r).2 with
        | true => exact ih hrs hapart'
        | false => exact hapart'
      · -- what touches lies in ranges that touch
        obtain ⟨-, hxs, hxe⟩ := cutOne_within hlt.le hr x hx
        obtain ⟨z, hz, hzs, hze⟩ : ∃ z ∈ rs, z.start ≤ y.start ∧ y.end ≤ z.end := by
          cases hon : (cutOne start «end» r).2 with
          | true =>
              rw [hon, if_pos rfl] at hy
              exact (cutOut_within hlt.le hrs y hy).2
          | false =>
              rw [hon, if_neg (by decide)] at hy
              exact ⟨y, hy, le_refl _, le_refl _⟩
        exact hfar z hz ⟨hxs.trans (htouch.1.trans hze), hzs.trans (htouch.2.trans hxe)⟩

/-- Among ranges that do not touch, nothing behind a split is missed. -/
theorem Apart.splitsLast (hle : start ≤ «end») : ∀ {l : List (Range T)}, Apart l →
    SplitsLast start «end» l := by
  intro l
  induction l with
  | nil => intro _; trivial
  | cons r rs ih =>
      intro hapart
      obtain ⟨hfar, hapart'⟩ := List.pairwise_cons.mp hapart
      rw [splitsLast_cons]
      obtain ⟨hs, he, heq⟩ | ⟨hs, hs', he, heq⟩ | ⟨hs, he, he', heq⟩ | ⟨hs, he, heq⟩ | ⟨hout, heq⟩ :=
        cutOne_cases hle r
      all_goals rw [heq]
      case inr.inr.inr.inl =>
        intro x hx hmeets
        obtain ⟨v, ⟨hxs, hxe⟩, hin⟩ := (meets_iff x).mp hmeets
        exact hfar x hx ⟨hs.trans (hin.1.trans hxe.le), hxs.trans (hin.2.le.trans he.le)⟩
      all_goals exact ih hapart'

/-! ## §8. The links carry a list of ranges. -/

section Links

variable {s : RangeList T} {xs ys ms nodes : List NodePtr} {x : NodePtr}

/-- The nodes are linked between the sentinels, both ways. -/
def Linked (s : RangeList T) (nodes : List NodePtr) : Prop :=
  TwoWay s.next s.prev .head .tail nodes

omit [LinearOrder T] in
theorem Linked.ne_tail (h : Linked s (xs ++ x :: ys)) : x ≠ .tail := fun heq =>
  TwoWay.tail_notMem h (by simp [heq])

omit [LinearOrder T] in
/-- A node is in neither part of the list around it. -/
theorem Linked.notMem_parts (h : Linked s (xs ++ x :: ys)) : x ∉ xs ∧ x ∉ ys := by
  have hnodup := List.nodup_append.mp (TwoWay.nodup_list h)
  exact ⟨fun hmem => hnodup.2.2 x hmem x List.mem_cons_self rfl, (List.nodup_cons.mp hnodup.2.1).1⟩

omit [LinearOrder T] in
theorem Linked.first (h : Linked s nodes) : s.next .head = nodes.headD .tail :=
  TwoWay.next_eq (a := []) h

omit [LinearOrder T] in
/-- **`delete_range`** takes the node out and answers with the node behind. -/
theorem Linked.deleteRange (h : Linked s (xs ++ x :: ys)) :
    (s.deleteRange x).1 = ys.headD .tail ∧ Linked (s.deleteRange x).2 (xs ++ ys)
      ∧ (s.deleteRange x).2.rang = s.rang := by
  have hnext : update s.next (s.prev x) (s.next x) x = s.next x :=
    update_of_ne (TwoWay.prev_ne h).symm _ _
  have hdelete : s.deleteRange x = (s.next x,
      { s with
        next := update s.next (s.prev x) (s.next x)
        prev := update s.prev (s.next x) (s.prev x) }) := by
    unfold RangeList.deleteRange setNext setPrev
    simp only [hnext]
  rw [hdelete]
  exact ⟨TwoWay.next_of_mem h, TwoWay.unlink h, rfl⟩

omit [LinearOrder T] in
theorem map_rang_congr {s' : RangeList T} (hrang : ∀ y, y ≠ x → s'.rang y = s.rang y)
    (hx : x ∉ ms) : ms.map s'.rang = ms.map s.rang :=
  List.map_congr_left fun y hy => hrang y fun heq => hx (heq ▸ hy)

/-- **A part of the inner loop of `add`** is a pass of the result over that part.  The
cursor stands at `ms`, the result is elsewhere. -/
theorem mergeLoop_part (x : NodePtr) (ys : List NodePtr) (ms : List NodePtr) :
    ∀ {s : RangeList T} (xs : List NodePtr), Linked s (xs ++ (ms ++ ys)) → x ∉ ms →
      ∃ s' ms', (∀ fuel, mergeLoop x (ms.length + fuel) ((ms ++ ys).headD .tail) s
            = mergeLoop x fuel (ys.headD .tail) s')
        ∧ Linked s' (xs ++ (ms' ++ ys)) ∧ ms'.Sublist ms
        ∧ (s'.rang x, ms'.map s'.rang) = absorb (s.rang x) (ms.map s.rang)
        ∧ ∀ y, y ≠ x → s'.rang y = s.rang y := by
  induction ms with
  | nil =>
      intro s xs h _
      exact ⟨s, [], fun fuel => by rw [List.length_nil, Nat.zero_add]; rfl, h, List.Sublist.slnil, rfl,
        fun _ _ => rfl⟩
  | cons m ms ih =>
      intro s xs h hx
      obtain ⟨hxm, hxms⟩ := not_or.mp fun hor => hx (List.mem_cons.mpr hor)
      have htail : m ≠ .tail := Linked.ne_tail h
      have hhead : (m :: ms ++ ys).headD NodePtr.tail = m := rfl
      have hlength : ∀ fuel, (m :: ms).length + fuel = (ms.length + fuel) + 1 := fun fuel => by
        rw [List.length_cons]
        omega
      rw [List.map_cons]
      cases hmerge : merge (s.rang x) (s.rang m) with
      | some rang =>
          -- the node goes, and the cursor stands at what follows
          obtain ⟨hn, hlinked, hrang⟩ := Linked.deleteRange (s := s.setRang x rang) h
          obtain ⟨s', ms', hloop, hlinked', hsub, habsorb, hframe⟩ := ih xs hlinked hxms
          refine ⟨s', ms', fun fuel => ?_, hlinked', hsub.cons m, ?_, fun y hy => ?_⟩
          · rw [hhead, hlength, mergeLoop, if_neg htail, if_neg hxm, hmerge]
            simp only [hn]
            exact hloop fuel
          · rw [habsorb, absorb_some hmerge, hrang]
            congr 1
            · exact update_self ..
            · exact map_rang_congr (fun y hy => update_of_ne hy _ _) hxms
          · rw [hframe y hy, hrang]
            exact update_of_ne hy _ _
      | none =>
          have hnext : s.next m = (ms ++ ys).headD .tail := TwoWay.next_of_mem h
          obtain ⟨s', ms', hloop, hlinked', hsub, habsorb, hframe⟩ :=
            ih (xs ++ [m]) (show Linked s ((xs ++ [m]) ++ (ms ++ ys)) by simpa using h) hxms
          refine ⟨s', m :: ms', fun fuel => ?_, by simpa using hlinked', hsub.cons_cons m, ?_, hframe⟩
          · rw [hhead, hlength, mergeLoop, if_neg htail, if_neg hxm, hmerge]
            simp only [hnext]
            exact hloop fuel
          · rw [absorb_none hmerge, ← habsorb, List.map_cons, hframe m (Ne.symm hxm)]

/-- **One round of the outer loop**: the result passes over what stands before it and
then over what stands behind it. -/
theorem mergeLoop_spec (h : Linked s (xs ++ x :: ys)) :
    ∃ s' xs' ys', (∀ bound, (xs ++ x :: ys).length < bound →
          mergeLoop x bound (s.next .head) s = some s')
      ∧ Linked s' (xs' ++ x :: ys') ∧ xs'.Sublist xs ∧ ys'.Sublist ys
      ∧ xs'.map s'.rang = (absorb (s.rang x) (xs.map s.rang)).2
      ∧ (s'.rang x, ys'.map s'.rang)
          = absorb (absorb (s.rang x) (xs.map s.rang)).1 (ys.map s.rang) := by
  obtain ⟨hxs, hys⟩ := h.notMem_parts
  -- before the result, and behind it
  obtain ⟨s₁, xs', hloop₁, hlinked₁, hsub₁, habsorb₁, hframe₁⟩ :=
    mergeLoop_part x (x :: ys) xs [] h hxs
  obtain ⟨s₂, ys', hloop₂, hlinked₂, hsub₂, habsorb₂, hframe₂⟩ :=
    mergeLoop_part x [] ys (xs' ++ [x])
      (show Linked s₁ ((xs' ++ [x]) ++ (ys ++ [])) by simpa using hlinked₁) hys
  rw [List.append_nil] at hloop₂
  have hys₁ : ys.map s₁.rang = ys.map s.rang := map_rang_congr hframe₁ hys
  refine ⟨s₂, xs', ys', fun bound hbound => ?_, by simpa using hlinked₂, hsub₁, hsub₂, ?_, ?_⟩
  · rw [List.length_append, List.length_cons] at hbound
    obtain ⟨rest, hrest⟩ := Nat.exists_eq_add_of_lt hbound
    have hskip : mergeLoop x ((ys.length + (rest + 1)) + 1) x s₁
        = mergeLoop x (ys.length + (rest + 1)) (ys.headD .tail) s₁ := by
      rw [mergeLoop, if_neg h.ne_tail, if_pos rfl,
        TwoWay.next_of_mem (show Linked s₁ _ from hlinked₁)]
    rw [h.first, show bound = xs.length + ((ys.length + (rest + 1)) + 1) by omega]
    exact ((hloop₁ _).trans hskip).trans (hloop₂ _)
  · rw [map_rang_congr hframe₂ fun hmem => hxs (hsub₁.subset hmem), ← habsorb₁]
  · rw [habsorb₂, hys₁, ← habsorb₁]

/-- **The outer loop** merges all. -/
theorem addLoop_spec : ∀ (n : Nat) {s : RangeList T} (xs ys : List NodePtr), ys.length ≤ n →
    Linked s (xs ++ ys) →
    ∃ s' nodes, (∀ bound fuel, ys.length < fuel → (xs ++ ys).length < bound →
          addLoop bound fuel (ys.headD .tail) s = some s')
      ∧ Linked s' nodes ∧ nodes.map s'.rang = mergeAll (xs.map s.rang) (ys.map s.rang) := by
  intro n
  induction n with
  | zero =>
      intro s xs ys hlen h
      have hys : ys = [] := List.eq_nil_of_length_eq_zero (Nat.le_zero.mp hlen)
      subst hys
      refine ⟨s, xs, fun bound fuel hfuel _ => ?_, by simpa using h, by rw [List.map_nil, mergeAll_nil]⟩
      obtain ⟨fuel, rfl⟩ := Nat.exists_eq_succ_of_ne_zero (Nat.ne_of_gt hfuel)
      rfl
  | succ n ih =>
      intro s xs ys hlen h
      cases ys with
      | nil => exact ih xs [] (Nat.zero_le n) h
      | cons x ys =>
          obtain ⟨s₁, xs', ys', hmerge, hlinked, hxs, hys, hbefore, hbehind⟩ := mergeLoop_spec h
          have hlx := hxs.length_le
          have hly := hys.length_le
          simp only [List.length_append, List.length_cons] at hlen hmerge
          obtain ⟨s', nodes, hloop, hnodes, hranges⟩ :=
            ih (xs' ++ [x]) ys' (by omega)
              (show Linked s₁ ((xs' ++ [x]) ++ ys') by simpa using hlinked)
          refine ⟨s', nodes, fun bound fuel hfuel hbound => ?_, hnodes, ?_⟩
          · simp only [List.length_append, List.length_cons] at hfuel hbound hloop
            obtain ⟨fuel, rfl⟩ := Nat.exists_eq_succ_of_ne_zero
              (Nat.ne_of_gt (Nat.zero_lt_of_lt hfuel))
            show (if x = .tail then some s else do
                let s ← mergeLoop x bound (s.next .head) s
                addLoop bound fuel (s.next x) s) = some s'
            rw [if_neg h.ne_tail, hmerge bound hbound]
            show addLoop bound fuel (s₁.next x) s₁ = some s'
            rw [TwoWay.next_of_mem (show Linked s₁ _ from hlinked)]
            exact hloop bound fuel (by omega) (by
              simp only [List.length_nil]
              omega)
          · rw [hranges, List.map_cons, mergeAll_cons, ← hbehind, ← hbefore, List.map_append]
            rfl

/-- **`add`** appends the range and merges. -/
theorem Linked.add (h : Linked s nodes) {address : Nat} (hnew : .entry address ∉ nodes)
    (start «end» : T) :
    ∃ s' nodes', (∀ fuel, nodes.length + 1 < fuel → s.add start «end» address fuel = some s')
      ∧ Linked s' nodes'
      ∧ nodes'.map s'.rang = mergeAll [] (nodes.map s.rang ++ [⟨start, «end»⟩]) := by
  have hfresh : NodePtr.entry address ∉ NodePtr.head :: .tail :: (nodes ++ []) := by simp [hnew]
  have hnodes : Linked s (nodes ++ []) := (List.append_nil nodes).symm ▸ h
  have hprev : s.prev .tail = nodes.getLastD .head := TwoWay.prev_eq hnodes
  -- the state after the append
  let appended : RangeList T :=
    { next := update (update s.next (.entry address) .tail)
        (nodes.getLastD .head) (.entry address)
      prev := update (update s.prev (.entry address) (nodes.getLastD .head))
        .tail (.entry address)
      rang := update s.rang (.entry address) ⟨start, «end»⟩ }
  have hlinked : Linked appended (nodes ++ [.entry address]) := TwoWay.insert hnodes hfresh
  have hranges : (nodes ++ [NodePtr.entry address]).map appended.rang
      = nodes.map s.rang ++ [⟨start, «end»⟩] := by
    rw [List.map_append, map_rang_congr (s := s) (fun y hy => update_of_ne hy _ _) hnew]
    show _ ++ [appended.rang (.entry address)] = _
    rw [show appended.rang (.entry address) = ⟨start, «end»⟩ from update_self ..]
  have hadd : ∀ fuel, s.add start «end» address fuel
      = addLoop fuel fuel (appended.next .head) appended := by
    intro fuel
    have htail : ∀ p, update s.prev (.entry address) p .tail = s.prev .tail := fun p =>
      update_of_ne (by simp) _ _
    unfold RangeList.add setNext setPrev setRang
    simp only [htail, hprev]
    rfl
  obtain ⟨s', nodes', hloop, hnodes', hmap⟩ :=
    addLoop_spec (nodes.length + 1) [] (nodes ++ [.entry address]) (by simp) hlinked
  refine ⟨s', nodes', fun fuel hfuel => ?_, hnodes', by rw [hmap, hranges]; rfl⟩
  rw [hadd, hlinked.first]
  refine hloop fuel fuel ?_ ?_
  · simpa using hfuel
  · simpa using hfuel

/-- From the first node of `ys` on the loop of `remove` ends, and it cuts out of their
ranges. -/
def CutsOut (start «end» : T) (address : Nat) (s : RangeList T) (xs ys : List NodePtr) : Prop :=
  ∃ s' nodes, (∀ fuel, ys.length < fuel →
        removeLoop start «end» address fuel (ys.headD .tail) s = some s')
    ∧ Linked s' nodes
    ∧ nodes.map s'.rang = xs.map s.rang ++ cutOut start «end» (ys.map s.rang)

section Round

variable {start «end» : T} {address : Nat}

/-- A round that is followed by others. -/
theorem CutsOut.round {s₁ : RangeList T} {xs₁ : List NodePtr}
    (hrest : CutsOut start «end» address s₁ xs₁ ys)
    (hround : ∀ fuel, removeLoop start «end» address (fuel + 1) x s
      = removeLoop start «end» address fuel (ys.headD .tail) s₁)
    (hmap : xs₁.map s₁.rang ++ cutOut start «end» (ys.map s₁.rang)
      = xs.map s.rang ++ cutOut start «end» ((x :: ys).map s.rang)) :
    CutsOut start «end» address s xs (x :: ys) := by
  obtain ⟨s', nodes, hloop, hnodes, hranges⟩ := hrest
  refine ⟨s', nodes, fun fuel hfuel => ?_, hnodes, hranges.trans hmap⟩
  rw [List.length_cons] at hfuel
  obtain ⟨fuel, rfl⟩ := Nat.exists_eq_succ_of_ne_zero (Nat.ne_of_gt (Nat.zero_lt_of_lt hfuel))
  exact (hround fuel).trans (hloop fuel (by omega))

/-- The node stays, with `r` for its range, and the loop goes on. -/
theorem CutsOut.stay {r : Range T} (h : Linked s (xs ++ x :: ys))
    (hrest : CutsOut start «end» address (s.setRang x r) (xs ++ [x]) ys)
    (hround : ∀ fuel, removeLoop start «end» address (fuel + 1) x s
      = removeLoop start «end» address fuel ((s.setRang x r).next x) (s.setRang x r))
    (hcut : cutOut start «end» (s.rang x :: ys.map s.rang)
      = r :: cutOut start «end» (ys.map s.rang)) :
    CutsOut start «end» address s xs (x :: ys) := by
  obtain ⟨hxs, hys⟩ := h.notMem_parts
  have hset : ∀ y, y ≠ x → (s.setRang x r).rang y = s.rang y :=
    fun y hy => update_of_ne hy _ _
  refine hrest.round (fun fuel => ?_) ?_
  · rw [hround fuel, show (s.setRang x r).next x = ys.headD .tail from TwoWay.next_of_mem h]
  · rw [List.map_cons, hcut, List.map_append, map_rang_congr hset hxs, map_rang_congr hset hys,
      List.append_assoc]
    show _ ++ (s.setRang x r).rang x :: _ = _
    rw [show (s.setRang x r).rang x = r from update_self ..]
    rfl

/-- The range is split in the middle, and the loop stops. -/
theorem cutsOut_split (h : Linked s (xs ++ x :: ys)) (hnew : .entry address ∉ xs ++ x :: ys)
    (hwhole : ¬ (start ≤ (s.rang x).start ∧ «end» ≥ (s.rang x).end))
    (hstart : start ≥ (s.rang x).start ∧ start < (s.rang x).end)
    (hend : «end» ≥ (s.rang x).start ∧ «end» < (s.rang x).end) :
    CutsOut start «end» address s xs (x :: ys) := by
  obtain ⟨hxs, hys⟩ := h.notMem_parts
  have hnew' : NodePtr.entry address ∉ xs ++ ys := fun hmem =>
    hnew (((List.sublist_cons_self x ys).append_left xs).subset hmem)
  have hfx : x ≠ .entry address := fun heq => hnew (by simp [heq])
  have hprev : ∀ p, update s.prev (.entry address) p x = s.prev x := fun p =>
    update_of_ne hfx _ _
  have hlinked := TwoWay.insert h (e := .entry address) (by simpa using hnew)
  rw [← TwoWay.prev_of_mem h] at hlinked
  let rang := update (update s.rang (.entry address)
    ⟨(s.rang x).start, start⟩) x { s.rang x with start := «end» }
  have hrang : ∀ y ∈ xs ++ ys, rang y = s.rang y := fun y hy => by
    have hyx : y ≠ x := fun heq => (List.mem_append.mp (heq ▸ hy)).elim hxs hys
    have hyf : y ≠ .entry address := fun heq => hnew' (heq ▸ hy)
    show update (update _ _ _) _ _ y = _
    rw [update_of_ne hyx, update_of_ne hyf]
  refine ⟨⟨_, _, rang⟩, xs ++ .entry address :: x :: ys, fun fuel hfuel => ?_, hlinked, ?_⟩
  · obtain ⟨fuel, rfl⟩ := Nat.exists_eq_succ_of_ne_zero (Nat.ne_of_gt (Nat.zero_lt_of_lt hfuel))
    show removeLoop start «end» address (fuel + 1) x s = _
    rw [removeLoop, if_neg h.ne_tail]
    simp only [if_neg hwhole, hstart, hend, and_self, not_true_eq_false, and_false, false_and,
      if_false, if_true, setRang, setNext, setPrev, hprev]
    rfl
  · rw [List.map_cons, cutOut, if_neg hwhole]
    simp only [hstart, hend, and_self, not_true_eq_false, and_false, false_and, if_false,
      if_true, List.map_append, List.map_cons]
    rw [List.map_congr_left fun y hy => hrang y (List.mem_append_left ys hy),
      List.map_congr_left fun y hy => hrang y (List.mem_append_right xs hy)]
    show _ ++ rang (.entry address) :: rang x :: _ = _
    rw [show rang x = { s.rang x with start := «end» } from update_self ..,
      show rang (.entry address) = ⟨(s.rang x).start, start⟩ from
        (update_of_ne hfx.symm _ _).trans (update_self ..)]

end Round

/-- **The loop of `remove`** cuts out of the rest of the list. -/
theorem removeLoop_spec (start «end» : T) {address : Nat} (ys : List NodePtr) :
    ∀ {s : RangeList T} (xs : List NodePtr), Linked s (xs ++ ys) → .entry address ∉ xs ++ ys →
      CutsOut start «end» address s xs ys := by
  induction ys with
  | nil =>
      intro s xs h _
      refine ⟨s, xs, fun fuel hfuel => ?_, by simpa using h, by simp [cutOut]⟩
      obtain ⟨fuel, rfl⟩ := Nat.exists_eq_succ_of_ne_zero (Nat.ne_of_gt hfuel)
      rfl
  | cons x ys ih =>
      intro s xs h hnew
      have hrest : ∀ r, CutsOut start «end» address (s.setRang x r) (xs ++ [x]) ys := fun r =>
        ih (xs ++ [x])
          (show TwoWay s.next s.prev .head .tail _ by
            rw [List.append_assoc]
            exact h) (by simpa using hnew)
      by_cases hwhole : start ≤ (s.rang x).start ∧ «end» ≥ (s.rang x).end
      · -- the whole range goes
        obtain ⟨hn, hlinked, hrang⟩ := h.deleteRange
        have hnew' : NodePtr.entry address ∉ xs ++ ys := fun hmem =>
          hnew (((List.sublist_cons_self x ys).append_left xs).subset hmem)
        refine (ih xs hlinked hnew').round (fun fuel => ?_) ?_
        · rw [removeLoop, if_neg h.ne_tail]
          simp only [if_pos hwhole, hn]
        · rw [hrang, List.map_cons, cutOut, if_pos hwhole]
      by_cases hstart : start ≥ (s.rang x).start ∧ start < (s.rang x).end
      · by_cases hend : «end» ≥ (s.rang x).start ∧ «end» < (s.rang x).end
        · exact cutsOut_split h hnew hwhole hstart hend
        · refine CutsOut.stay h (hrest { s.rang x with «end» := start }) (fun fuel => ?_) ?_
          · rw [removeLoop, if_neg h.ne_tail]
            simp only [if_neg hwhole, hstart, hend, and_self, not_false_eq_true, if_true]
          · rw [cutOut, if_neg hwhole]
            simp only [hstart, hend, and_self, not_false_eq_true, if_true]
      · by_cases hend : «end» ≥ (s.rang x).start ∧ «end» < (s.rang x).end
        · refine CutsOut.stay h (hrest { s.rang x with start := «end» }) (fun fuel => ?_) ?_
          · rw [removeLoop, if_neg h.ne_tail]
            simp only [if_neg hwhole, hstart, hend, and_self, not_false_eq_true, false_and,
              if_false, if_true]
          · rw [cutOut, if_neg hwhole]
            simp only [hstart, hend, and_self, not_false_eq_true, false_and, if_false, if_true]
        · -- the range is not touched
          have hsame : s.setRang x (s.rang x) = s := by
            unfold setRang
            rw [update_eq_self]
          refine CutsOut.stay h (hrest (s.rang x)) (fun fuel => ?_) ?_
          · rw [hsame, removeLoop, if_neg h.ne_tail]
            simp only [if_neg hwhole, hstart, hend, and_false, false_and, if_false]
          · rw [cutOut, if_neg hwhole]
            simp only [hstart, hend, and_false, false_and, if_false]

/-- **`remove`** cuts out. -/
theorem Linked.remove (h : Linked s nodes) {address : Nat} (hnew : .entry address ∉ nodes)
    (start «end» : T) :
    ∃ s' nodes', (∀ fuel, nodes.length < fuel → s.remove start «end» address fuel = some s')
      ∧ Linked s' nodes' ∧ nodes'.map s'.rang = cutOut start «end» (nodes.map s.rang) := by
  obtain ⟨s', nodes', hloop, hnodes', hmap⟩ :=
    removeLoop_spec start «end» nodes [] h hnew
  refine ⟨s', nodes', fun fuel hfuel => ?_, hnodes', hmap⟩
  rw [RangeList.remove, h.first]
  exact hloop fuel hfuel

omit [LinearOrder T] in
theorem clearLoop_some (ys : List NodePtr) : ∀ xs : List NodePtr, Linked s (xs ++ ys) →
    ∀ fuel, ys.length < fuel → s.clearLoop fuel (ys.headD .tail) = some () := by
  induction ys with
  | nil =>
      intro xs _ fuel hfuel
      obtain ⟨fuel, rfl⟩ := Nat.exists_eq_succ_of_ne_zero (Nat.ne_of_gt hfuel)
      rfl
  | cons x ys ih =>
      intro xs h fuel hfuel
      rw [List.length_cons] at hfuel
      obtain ⟨fuel, rfl⟩ := Nat.exists_eq_succ_of_ne_zero (Nat.ne_of_gt (Nat.zero_lt_of_lt hfuel))
      show (if x = .tail then some () else s.clearLoop fuel (s.next x)) = some ()
      rw [if_neg h.ne_tail, TwoWay.next_of_mem h]
      exact ih (xs ++ [x]) (by simpa using h) fuel (by omega)

omit [LinearOrder T] in
/-- **`clear`** leaves no range. -/
theorem Linked.clear (h : Linked s nodes) :
    ∃ s', (∀ fuel, nodes.length < fuel → s.clear fuel = some s') ∧ Linked s' [] := by
  refine ⟨(s.setNext .head .tail).setPrev .tail .head, fun fuel hfuel => ?_, ?_⟩
  · rw [RangeList.clear, h.first, clearLoop_some nodes [] h fuel hfuel]
    rfl
  · exact TwoWay.nil (by decide) (by simp [setNext, setPrev]) (by simp [setNext, setPrev])

theorem isBoundLoop_spec (value : T) (ys : List NodePtr) : ∀ xs : List NodePtr,
    Linked s (xs ++ ys) →
      ∃ bound, (∀ fuel, ys.length < fuel → s.isBoundLoop value fuel (ys.headD .tail) = some bound)
        ∧ (bound = true ↔ value ∈ denote (ys.map s.rang)) := by
  induction ys with
  | nil =>
      intro xs _
      refine ⟨false, fun fuel hfuel => ?_, by simp [denote]⟩
      obtain ⟨fuel, rfl⟩ := Nat.exists_eq_succ_of_ne_zero (Nat.ne_of_gt hfuel)
      rfl
  | cons x ys ih =>
      intro xs h
      obtain ⟨bound, hloop, hiff⟩ := ih (xs ++ [x]) (by simpa using h)
      suffices hround : ∃ bound, (∀ fuel, ys.length < fuel →
            s.isBoundLoop value (fuel + 1) x = some bound)
          ∧ (bound = true ↔ value ∈ denote (s.rang x :: ys.map s.rang)) by
        obtain ⟨bound, hloop, hiff⟩ := hround
        refine ⟨bound, fun fuel hfuel => ?_, hiff⟩
        rw [List.length_cons] at hfuel
        obtain ⟨fuel, rfl⟩ := Nat.exists_eq_succ_of_ne_zero (Nat.ne_of_gt (Nat.zero_lt_of_lt hfuel))
        exact hloop fuel (by omega)
      simp only [mem_denote_cons]
      by_cases hin : value ≥ (s.rang x).start ∧ value < (s.rang x).end
      · refine ⟨true, fun fuel _ => ?_, iff_of_true rfl (Or.inl hin)⟩
        rw [isBoundLoop, if_neg h.ne_tail, if_pos hin]
      · refine ⟨bound, fun fuel hfuel => ?_, hiff.trans (or_iff_right hin).symm⟩
        rw [isBoundLoop, if_neg h.ne_tail, if_neg hin, TwoWay.next_of_mem h]
        exact hloop fuel hfuel

end Links

/-! ## §9. Calls. -/

/-- One call; an address is what the allocator answers with. -/
inductive Call (T : Type) where
  | add (start «end» : T) (address : Nat)
  | remove (start «end» : T) (address : Nat)
  | clear

def exec (fuel : Nat) (s : RangeList T) : Call T → Option (RangeList T)
  | .add start «end» address => s.add start «end» address fuel
  | .remove start «end» address => s.remove start «end» address fuel
  | .clear => s.clear fuel

/-- The call returns. -/
def Step (s : RangeList T) (c : Call T) (s' : RangeList T) : Prop :=
  ∃ steps, ∀ fuel ≥ steps, exec fuel s c = some s'

/-- What callers see to: the ends are in order, and the allocator answers with a node that
is not in use. -/
def Call.Proper (nodes : List NodePtr) : Call T → Prop
  | .add start «end» address => start ≤ «end» ∧ .entry address ∉ nodes
  | .remove start «end» address => start ≤ «end» ∧ .entry address ∉ nodes
  | .clear => True

/-- A `remove` misses nothing behind the range it splits. -/
def Call.Safe (l : List (Range T)) : Call T → Prop
  | .add _ _ _ => True
  | .remove start «end» _ => SplitsLast start «end» l
  | .clear => True

/-- What a call means for the set. -/
def Call.apply (S : Set T) : Call T → Set T
  | .add start «end» _ => S ∪ Set.Ico start «end»
  | .remove start «end» _ => S \ Set.Ico start «end»
  | .clear => ∅

/-- **The set** of a history, most recent call first. -/
def setAfter : List (Call T) → Set T
  | [] => ∅
  | c :: hist => c.apply (setAfter hist)

/-- **`is_bound` decides the set.** -/
def Denotes (s : RangeList T) (S : Set T) : Prop :=
  ∀ v, ∃ bound, (∃ steps, ∀ fuel ≥ steps, s.isBound v fuel = some bound) ∧ (bound = true ↔ v ∈ S)

/-- The same on the list of ranges. -/
def Call.onRanges (l : List (Range T)) : Call T → List (Range T)
  | .add start «end» _ => mergeAll [] (l ++ [⟨start, «end»⟩])
  | .remove start «end» _ => cutOut start «end» l
  | .clear => []

variable {s s' : RangeList T} {nodes : List NodePtr} {c : Call T} {S : Set T}

/-- **Every proper call returns**, and does to the ranges what it should. -/
theorem Linked.exec (h : Linked s nodes) (hproper : c.Proper nodes) :
    ∃ s' nodes', Step s c s' ∧ Linked s' nodes'
      ∧ nodes'.map s'.rang = c.onRanges (nodes.map s.rang) := by
  cases c with
  | add start «end» address =>
      obtain ⟨s', nodes', hadd, hlinked, hmap⟩ := h.add hproper.2 start «end»
      exact ⟨s', nodes', ⟨nodes.length + 2, fun fuel hfuel => hadd fuel (by omega)⟩, hlinked, hmap⟩
  | remove start «end» address =>
      obtain ⟨s', nodes', hremove, hlinked, hmap⟩ := h.remove hproper.2 start «end»
      exact ⟨s', nodes', ⟨nodes.length + 1, fun fuel hfuel => hremove fuel (by omega)⟩, hlinked, hmap⟩
  | clear =>
      obtain ⟨s', hclear, hlinked⟩ := h.clear
      exact ⟨s', [], ⟨nodes.length + 1, fun fuel hfuel => hclear fuel (by omega)⟩, hlinked, rfl⟩

theorem Step.unique {s₁ s₂ : RangeList T} (h₁ : Step s c s₁) (h₂ : Step s c s₂) : s₁ = s₂ := by
  obtain ⟨n₁, h₁⟩ := h₁
  obtain ⟨n₂, h₂⟩ := h₂
  have heq := (h₁ (n₁ + n₂) (by omega)).symm.trans (h₂ (n₁ + n₂) (by omega))
  exact Option.some.inj heq

theorem onRanges_ordered (hl : AllOrdered l) (hproper : c.Proper nodes) :
    AllOrdered (c.onRanges l) := by
  cases c with
  | add start «end» address =>
      exact (mergeAll_denote (by simp [AllOrdered]) (hl.concat (r := ⟨start, «end»⟩) hproper.1)).1
  | remove start «end» address => exact fun x hx => (cutOut_within hproper.1 hl x hx).1
  | clear => exact fun x hx => absurd hx List.not_mem_nil

/-- **A call does to the set what it should exactly when it is safe.** -/
theorem onRanges_denote_iff (hl : AllOrdered l) (hproper : c.Proper nodes)
    (hS : ∀ v, v ∈ denote l ↔ v ∈ S) :
    (∀ v, v ∈ denote (c.onRanges l) ↔ v ∈ c.apply S) ↔ c.Safe l := by
  cases c with
  | add start «end» address =>
      refine iff_of_true (fun v => ?_) trivial
      obtain ⟨-, hiff⟩ := mergeAll_denote (show AllOrdered ([] : List (Range T)) by simp [AllOrdered])
        (hl.concat (r := ⟨start, «end»⟩) hproper.1)
      have hnil : v ∉ denote ([] : List (Range T)) := by simp [denote]
      show v ∈ denote (mergeAll _ _) ↔ v ∈ S ∪ Set.Ico start «end»
      rw [hiff, or_iff_right hnil, mem_denote_append, mem_denote_cons, or_iff_left hnil, hS,
        Set.mem_union, Set.mem_Ico]
  | remove start «end» address =>
      refine Iff.trans (forall_congr' fun v => ?_) (cutOut_denote_iff hproper.1 l)
      rw [hS]
      rfl
  | clear => exact iff_of_true (fun v => by simp [Call.onRanges, Call.apply, denote]) trivial

theorem Linked.denotes_iff (h : Linked s nodes) :
    Denotes s S ↔ ∀ v, v ∈ denote (nodes.map s.rang) ↔ v ∈ S := by
  refine forall_congr' fun v => ?_
  obtain ⟨bound, hloop, hiff⟩ := isBoundLoop_spec v nodes [] h
  have hbound : ∀ fuel ≥ nodes.length + 1, s.isBound v fuel = some bound := fun fuel hfuel => by
    rw [isBound, h.first]
    exact hloop fuel hfuel
  constructor
  · intro ⟨bound', ⟨steps, hsteps⟩, hS⟩
    have heq := (hbound (nodes.length + 1 + steps) (by omega)).symm.trans (hsteps _ (by omega))
    rw [← hiff, ← hS, Option.some.inj heq]
  · intro hS
    exact ⟨bound, ⟨_, hbound⟩, hiff.trans hS⟩

/-! ## §10. Runs. -/

/-- The call is proper for the nodes in use. -/
def ProperCall (_ : List (Call T)) (s : RangeList T) (c : Call T) : Prop :=
  ∃ nodes, Linked s nodes ∧ c.Proper nodes

/-- The call is proper for the nodes in use and safe for their ranges. -/
def SafeCall (_ : List (Call T)) (s : RangeList T) (c : Call T) : Prop :=
  ∃ nodes, Linked s nodes ∧ c.Proper nodes ∧ c.Safe (nodes.map s.rang)

/-- The call is proper, and what it removes is not empty. -/
def FullCall (_ : List (Call T)) (s : RangeList T) (c : Call T) : Prop :=
  ∃ nodes, Linked s nodes ∧ c.Proper nodes
    ∧ ∀ start «end» address, c = .remove start «end» address → start < «end»

omit [LinearOrder T] in
theorem linked_empty (rang : NodePtr → Range T) : Linked (empty rang) [] :=
  TwoWay.nil (by decide) rfl rfl

/-- One step of a run, on the ranges. -/
theorem Linked.step (h : Linked s nodes) (hproper : c.Proper nodes) (hst : Step s c s') :
    ∃ nodes', Linked s' nodes' ∧ nodes'.map s'.rang = c.onRanges (nodes.map s.rang) := by
  obtain ⟨s'', nodes', hst', hlinked, hmap⟩ := h.exec hproper
  have heq := hst.unique hst'
  subst heq
  exact ⟨nodes', hlinked, hmap⟩

variable {rang : NodePtr → Range T} {hist : List (Call T)}

/-- **In every run of safe calls** they denote the set. -/
theorem denote_run (hrun : GuardedRun Step SafeCall (empty rang) hist s) :
    ∃ nodes, Linked s nodes ∧ AllOrdered (nodes.map s.rang)
      ∧ ∀ v, v ∈ denote (nodes.map s.rang) ↔ v ∈ setAfter hist := by
  refine hrun.historyInvariant (fun hist s => ∃ nodes, Linked s nodes
      ∧ AllOrdered (nodes.map s.rang) ∧ ∀ v, v ∈ denote (nodes.map s.rang) ↔ v ∈ setAfter hist)
    ⟨[], linked_empty rang, fun x hx => absurd hx List.not_mem_nil, fun v => by
      simp [denote, setAfter]⟩ ?_
  intro hist s c s' ⟨nodes, hlinked, hordered, hiff⟩ ⟨nodes', hlinked', hproper, hsafe⟩ hst
  have hnodes := TwoWay.unique hlinked' hlinked
  subst hnodes
  obtain ⟨nodes'', hlinked'', hmap⟩ := hlinked'.step hproper hst
  refine ⟨nodes'', hlinked'', hmap ▸ onRanges_ordered hordered hproper, ?_⟩
  rw [hmap]
  exact (onRanges_denote_iff hordered hproper hiff).mpr hsafe

/-- **Runs that never remove an empty range** are safe: no two ranges ever touch. -/
theorem fullRun_safe (hrun : GuardedRun Step FullCall (empty rang) hist s) :
    GuardedRun Step SafeCall (empty rang) hist s := by
  refine (hrun.historyInvariant (fun hist s => GuardedRun Step SafeCall (empty rang) hist s
      ∧ ∃ nodes, Linked s nodes ∧ AllOrdered (nodes.map s.rang) ∧ Apart (nodes.map s.rang))
    ⟨GuardedRun.init, [], linked_empty rang, fun x hx => absurd hx List.not_mem_nil,
      List.Pairwise.nil⟩ ?_).1
  intro hist s c s' ⟨hrun, nodes, hlinked, hordered, hapart⟩ ⟨nodes', hlinked', hproper, hfull⟩ hst
  have hnodes := TwoWay.unique hlinked' hlinked
  subst hnodes
  obtain ⟨nodes'', hlinked'', hmap⟩ := hlinked'.step hproper hst
  have hordered' := hmap ▸ onRanges_ordered hordered hproper
  cases c with
  | add start «end» address =>
      refine ⟨hrun.step ⟨nodes', hlinked', hproper, trivial⟩ hst, nodes'', hlinked'', hordered', ?_⟩
      rw [hmap]
      exact hapart.mergeAll hordered hproper.1
  | remove start «end» address =>
      refine ⟨hrun.step ⟨nodes', hlinked', hproper, hapart.splitsLast hproper.1⟩ hst, nodes'',
        hlinked'', hordered', ?_⟩
      rw [hmap]
      exact Apart.cutOut (hfull start «end» address rfl) hordered hapart
  | clear =>
      refine ⟨hrun.step ⟨nodes', hlinked', hproper, trivial⟩ hst, nodes'', hlinked'', hordered', ?_⟩
      rw [hmap]
      exact List.Pairwise.nil

/-- **`RangeList` DENOTES A SET**, in every run of proper calls in which no `remove`
splits a range while a later one meets what is removed:

  * every proper call returns, in every run,
  * in a safe run `is_bound` decides the set of the history, and the next proper
    call keeps it so EXACTLY WHEN it is safe,
  * a run that never removes an empty range is safe. -/
theorem range_list_denotes :
    (GuardedRun Step ProperCall (empty rang) hist s →
        ∀ c, ProperCall hist s c → ∃ s', Step s c s')
      ∧ (GuardedRun Step SafeCall (empty rang) hist s →
          Denotes s (setAfter hist)
            ∧ ∀ c s', ProperCall hist s c → Step s c s' →
                (Denotes s' (setAfter (c :: hist)) ↔ SafeCall hist s c))
      ∧ (GuardedRun Step FullCall (empty rang) hist s →
          GuardedRun Step SafeCall (empty rang) hist s) := by
  refine ⟨fun _ c hcall => ?_, fun hrun => ?_, fullRun_safe⟩
  · obtain ⟨nodes, hlinked, hproper⟩ := hcall
    obtain ⟨s', -, hst, -⟩ := hlinked.exec hproper
    exact ⟨s', hst⟩
  · obtain ⟨nodes, hlinked, hordered, hiff⟩ := denote_run hrun
    refine ⟨hlinked.denotes_iff.mpr hiff, ?_⟩
    intro c s' ⟨nodes', hlinked', hproper⟩ hst
    have hnodes := TwoWay.unique hlinked' hlinked
    subst hnodes
    obtain ⟨nodes'', hlinked'', hmap⟩ := hlinked'.step hproper hst
    have hsafe := onRanges_denote_iff hordered hproper hiff
    rw [← hmap] at hsafe
    refine (hlinked''.denotes_iff.trans hsafe).trans ⟨fun h => ⟨nodes', hlinked', hproper, h⟩, ?_⟩
    intro ⟨nodes₁, hlinked₁, _, h⟩
    rw [TwoWay.unique hlinked' hlinked₁]
    exact h

omit [LinearOrder T] in
/-- There is always an address that is not in use. -/
theorem exists_fresh (nodes : List NodePtr) : ∃ address, NodePtr.entry address ∉ nodes := by
  by_contra hall
  push Not at hall
  have hsub : (Set.range NodePtr.entry) ⊆ { p | p ∈ nodes } := fun p ⟨address, hp⟩ =>
    hp ▸ hall address
  exact Set.infinite_range_of_injective (fun _ _ h => NodePtr.entry.inj h)
    ((List.finite_toSet nodes).subset hsub)

/-- A call with some address that is not in use, on known ranges. -/
theorem Linked.some_call (h : Linked s nodes) (c : Nat → Call T)
    (hproper : ∀ address, .entry address ∉ nodes → (c address).Proper nodes) :
    ∃ address s' nodes', (c address).Proper nodes ∧ Step s (c address) s' ∧ Linked s' nodes'
      ∧ nodes'.map s'.rang = (c address).onRanges (nodes.map s.rang) := by
  obtain ⟨address, hfresh⟩ := exists_fresh nodes
  obtain ⟨s', nodes', hst, hlinked, hmap⟩ := h.exec (hproper address hfresh)
  exact ⟨address, s', nodes', hproper address hfresh, hst, hlinked, hmap⟩

/-- Two ranges, with the middle of one removed. -/
theorem range_list_denotes_example :
    ∃ (hist : List (Call Nat)) (s : RangeList Nat),
      GuardedRun Step FullCall (empty fun _ => ⟨0, 0⟩) hist s ∧ hist.length = 3
        ∧ Denotes s (setAfter hist)
        ∧ ∃ c s', ProperCall hist s c ∧ Step s c s' ∧ Denotes s' (setAfter (c :: hist)) := by
  have h₀ := linked_empty (fun _ => (⟨0, 0⟩ : Range Nat))
  obtain ⟨a₁, s₁, n₁, hp₁, hst₁, h₁, -⟩ := h₀.some_call (.add 40 50) fun a ha => ⟨by decide, ha⟩
  obtain ⟨a₂, s₂, n₂, hp₂, hst₂, h₂, -⟩ := h₁.some_call (.add 10 30) fun a ha => ⟨by decide, ha⟩
  obtain ⟨a₃, s₃, n₃, hp₃, hst₃, h₃, -⟩ := h₂.some_call (.remove 15 20) fun a ha =>
    ⟨by decide, ha⟩
  have hrun : GuardedRun Step FullCall (empty fun _ => ⟨0, 0⟩)
      [.remove 15 20 a₃, .add 10 30 a₂, .add 40 50 a₁] s₃ :=
    ((GuardedRun.init.step ⟨_, h₀, hp₁, fun _ _ _ h => by cases h⟩ hst₁).step
      ⟨_, h₁, hp₂, fun _ _ _ h => by cases h⟩ hst₂).step
      ⟨_, h₂, hp₃, fun _ _ _ h => by cases h; decide⟩ hst₃
  have hsafe := range_list_denotes.2.2 hrun
  obtain ⟨hdenotes, hnext⟩ := range_list_denotes.2.1 hsafe
  have hproper : ProperCall [.remove 15 20 a₃, .add 10 30 a₂, .add 40 50 a₁] s₃ .clear :=
    ⟨_, h₃, trivial⟩
  have hproperRun : GuardedRun Step ProperCall (empty fun _ => ⟨0, 0⟩)
      [.remove 15 20 a₃, .add 10 30 a₂, .add 40 50 a₁] s₃ :=
    ((GuardedRun.init.step ⟨_, h₀, hp₁⟩ hst₁).step ⟨_, h₁, hp₂⟩ hst₂).step ⟨_, h₂, hp₃⟩ hst₃
  obtain ⟨s', hst⟩ := range_list_denotes.1 hproperRun .clear hproper
  exact ⟨_, _, hrun, rfl, hdenotes, .clear, s', hproper, hst,
    (hnext .clear s' hproper hst).mpr ⟨_, h₃, trivial, trivial⟩⟩

/-- **An overlap survives `remove`**: an empty `remove` splits `[10, 30)`, the next `add`
leaves `[25, 50)` over `[10, 30)`, and removing `[26, 28)` stops at the first. -/
theorem overlap_survives_remove :
    ¬ ∀ (hist : List (Call Nat)) (s : RangeList Nat),
      GuardedRun Step ProperCall (empty fun _ => ⟨0, 0⟩) hist s → Denotes s (setAfter hist) := by
  intro hclaim
  have h₀ := linked_empty (fun _ => (⟨0, 0⟩ : Range Nat))
  obtain ⟨a₁, s₁, n₁, hp₁, hst₁, h₁, hm₁⟩ := h₀.some_call (.add 40 50) fun a ha => ⟨by decide, ha⟩
  obtain ⟨a₂, s₂, n₂, hp₂, hst₂, h₂, hm₂⟩ := h₁.some_call (.add 10 30) fun a ha => ⟨by decide, ha⟩
  obtain ⟨a₃, s₃, n₃, hp₃, hst₃, h₃, hm₃⟩ := h₂.some_call (.remove 20 20) fun a ha =>
    ⟨by decide, ha⟩
  obtain ⟨a₄, s₄, n₄, hp₄, hst₄, h₄, hm₄⟩ := h₃.some_call (.add 25 40) fun a ha => ⟨by decide, ha⟩
  obtain ⟨a₅, s₅, n₅, hp₅, hst₅, h₅, hm₅⟩ := h₄.some_call (.remove 26 28) fun a ha =>
    ⟨by decide, ha⟩
  have hranges : n₅.map s₅.rang = [⟨25, 26⟩, ⟨28, 50⟩, ⟨10, 30⟩] := by
    rw [hm₅, hm₄, hm₃, hm₂, hm₁]
    simp [Call.onRanges, mergeAll_cons, mergeAll_nil, absorb, merge, cutOut]
  have hdenotes := hclaim _ s₅ (((((GuardedRun.init.step ⟨_, h₀, hp₁⟩ hst₁).step
    ⟨_, h₁, hp₂⟩ hst₂).step ⟨_, h₂, hp₃⟩ hst₃).step ⟨_, h₃, hp₄⟩ hst₄).step ⟨_, h₄, hp₅⟩ hst₅)
  have hbound := (h₅.denotes_iff.mp hdenotes 26).mp (by rw [hranges]; simp [denote])
  exact hbound.2 ⟨by decide, by decide⟩

end RangeList

end MierOS.Stdlib
