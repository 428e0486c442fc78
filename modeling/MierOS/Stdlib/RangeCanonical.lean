/-
  MierOS.Stdlib.RangeCanonical
  **THE CANONICAL FORM of `std::RangeList`**: no range is empty, and between any two of
  them is a gap.

  `add` always restores it.  `remove` keeps the gaps, but where it cuts a range from its
  very start without reaching the end, it takes the start for a point inside of the range
  and leaves an EMPTY first half.

  Main results: `cutOut_nonEmpty_iff`, `range_list_canonical`.
-/
import MierOS.Stdlib.RangeList

namespace MierOS.Stdlib

open Lib Lib.Links

namespace RangeList

variable {T : Type} [LinearOrder T] {l done rest : List (Range T)} {r result : Range T}
  {start «end» : T}

/-! ## §1. Ranges in canonical form. -/

/-- No range is empty. -/
def NoneEmpty (l : List (Range T)) : Prop := ∀ r ∈ l, r.start < r.end

/-- **The canonical form**: no range is empty, and no two touch. -/
structure CanonicalRanges (l : List (Range T)) : Prop where
  noneEmpty : NoneEmpty l
  apart : Apart l

theorem NoneEmpty.ordered (h : NoneEmpty l) : AllOrdered l := fun r hr => (h r hr).le

theorem noneEmpty_nil : NoneEmpty ([] : List (Range T)) := fun _ hr => absurd hr List.not_mem_nil

theorem noneEmpty_cons : NoneEmpty (r :: l) ↔ r.start < r.end ∧ NoneEmpty l :=
  List.forall_mem_cons

theorem noneEmpty_append {l' : List (Range T)} :
    NoneEmpty (l ++ l') ↔ NoneEmpty l ∧ NoneEmpty l' := List.forall_mem_append

/-! ## §2. `add`. -/

/-- A range that swallows others does not become empty. -/
theorem absorb_nonEmpty (ms : List (Range T)) : ∀ {result : Range T}, result.start < result.end →
    NoneEmpty ms → (absorb result ms).1.start < (absorb result ms).1.end
      ∧ NoneEmpty (absorb result ms).2 := by
  induction ms with
  | nil => exact fun hresult _ => ⟨hresult, noneEmpty_nil⟩
  | cons m ms ih =>
      intro result hresult hms
      obtain ⟨hm, hrest⟩ := noneEmpty_cons.mp hms
      have hmerge : merge result m = _ := merge_eq hresult.le hm.le
      by_cases htouch : Touch result m
      · rw [if_pos htouch] at hmerge
        have hhull : (hull result m).start < (hull result m).end :=
          lt_of_le_of_lt (min_le_left _ _) (lt_of_lt_of_le hresult (le_max_left _ _))
        rw [absorb_some hmerge]
        exact ih hhull hrest
      · rw [if_neg htouch] at hmerge
        obtain ⟨hfirst, hothers⟩ := ih hresult hrest
        rw [absorb_none hmerge]
        exact ⟨hfirst, noneEmpty_cons.mpr ⟨hm, hothers⟩⟩

theorem mergeAll_nonEmpty (hdone : NoneEmpty done) (hrest : NoneEmpty rest) :
    NoneEmpty (mergeAll done rest) := by
  refine (mergeAll_induction (I := fun done rest => NoneEmpty done ∧ NoneEmpty rest) ?_ rest.length
    done rest (Nat.le_refl _) ⟨hdone, hrest⟩).1
  intro done result rest ⟨hdone, hcons⟩
  obtain ⟨hresult, hrest⟩ := noneEmpty_cons.mp hcons
  -- one round passes over the ranges before and then over those behind
  obtain ⟨hbefore, hleft⟩ := absorb_nonEmpty done hresult hdone
  obtain ⟨hbehind, hright⟩ := absorb_nonEmpty rest hbefore hrest
  exact ⟨noneEmpty_append.mpr ⟨hleft, noneEmpty_cons.mpr ⟨hbehind, noneEmpty_nil⟩⟩, hright⟩

/-- **`add` of a non-empty range** keeps the canonical form. -/
theorem CanonicalRanges.add (h : CanonicalRanges l) (hr : r.start < r.end) :
    CanonicalRanges (mergeAll [] (l ++ [r])) where
  noneEmpty := mergeAll_nonEmpty noneEmpty_nil
    (noneEmpty_append.mpr ⟨h.noneEmpty, noneEmpty_cons.mpr ⟨hr, noneEmpty_nil⟩⟩)
  apart := h.apart.mergeAll h.noneEmpty.ordered hr.le

/-! ## §3. `remove`. -/

/-- **One range under `remove`**: what is left is not empty, unless the range is cut from
its start and goes on behind the end. -/
theorem cutOne_nonEmpty_iff (hlt : start < «end») (hr : r.start < r.end) :
    NoneEmpty (cutOne start «end» r).1 ↔ (r.start = start → r.end ≤ «end») := by
  obtain ⟨hs, he, heq⟩ | ⟨hs, hs', he, heq⟩ | ⟨hs, he, he', heq⟩ | ⟨hs, he, heq⟩ | ⟨hout, heq⟩ :=
    cutOne_cases hlt.le r
  · rw [heq]
    exact iff_of_true noneEmpty_nil fun _ => he
  · -- a range that starts here would have been erased
    have hne : r.start ≠ start := fun hstart => by
      rw [cutOne, if_pos ⟨hstart.ge, he⟩] at heq
      simp at heq
    rw [heq, noneEmpty_cons]
    exact iff_of_true ⟨lt_of_le_of_ne hs hne, noneEmpty_nil⟩ fun _ => he
  · rw [heq, noneEmpty_cons]
    exact iff_of_true ⟨he', noneEmpty_nil⟩ fun hstart => absurd hstart hs.ne'
  · rw [heq, noneEmpty_cons, noneEmpty_cons]
    constructor
    · rintro ⟨hfirst, -⟩ hstart
      exact absurd hstart hfirst.ne
    · intro hcut
      have hne : r.start ≠ start := fun hstart => absurd (hcut hstart) (not_le.mpr he)
      exact ⟨lt_of_le_of_ne hs hne, he, noneEmpty_nil⟩
  · rw [heq, noneEmpty_cons]
    refine iff_of_true ⟨hr, noneEmpty_nil⟩ fun hstart => ?_
    rcases hout with hout | hout
    · exact absurd (hstart ▸ hout) (not_lt.mpr hlt.le)
    · exact absurd (hstart ▸ hr) (not_lt.mpr hout)

/-- **What `remove` leaves behind**: no empty range, exactly when every range that starts
where the removal starts is erased as a whole. -/
theorem cutOut_nonEmpty_iff (hlt : start < «end») : ∀ {l : List (Range T)}, CanonicalRanges l →
    (NoneEmpty (cutOut start «end» l) ↔ ∀ r ∈ l, r.start = start → r.end ≤ «end») := by
  intro l
  induction l with
  | nil => exact fun _ => iff_of_true noneEmpty_nil fun _ hr => absurd hr List.not_mem_nil
  | cons r rs ih =>
      intro h
      obtain ⟨hr, hrs⟩ := noneEmpty_cons.mp h.noneEmpty
      obtain ⟨hfar, hapart⟩ := List.pairwise_cons.mp h.apart
      rw [cutOut_cons, noneEmpty_append, cutOne_nonEmpty_iff hlt hr, List.forall_mem_cons]
      refine and_congr_right fun _ => ?_
      cases hon : (cutOne start «end» r).2 with
      | true =>
          rw [if_pos rfl]
          exact ih ⟨hrs, hapart⟩
      | false =>
          -- the range that is split reaches over the start, so no other one starts there
          rw [if_neg (by decide)]
          refine iff_of_true hrs fun x hx hstart => ?_
          obtain ⟨hs, he⟩ : r.start ≤ start ∧ «end» < r.end := by
            obtain ⟨-, -, heq⟩ | ⟨-, -, -, heq⟩ | ⟨-, -, -, heq⟩ | ⟨hs, he, -⟩ | ⟨-, heq⟩ :=
              cutOne_cases hlt.le r
            case inr.inr.inr.inl => exact ⟨hs, he⟩
            all_goals
              rw [heq] at hon
              exact absurd hon (by simp)
          have hxlt := hrs x hx
          rw [hstart] at hxlt
          exact absurd ⟨hs.trans hxlt.le, hstart.le.trans (hlt.trans he).le⟩ (hfar x hx)

/-! ## §4. Runs. -/

/-- What the callers see to: no range is empty, and the allocator answers with a node that
is not in use. -/
def Call.Strict (nodes : List NodePtr) : Call T → Prop
  | .add start «end» address => start < «end» ∧ .entry address ∉ nodes
  | .remove start «end» address => start < «end» ∧ .entry address ∉ nodes
  | .clear => True

/-- A `remove` does not cut the beginning off a range. -/
def Call.Inside (l : List (Range T)) : Call T → Prop
  | .add _ _ _ => True
  | .remove start «end» _ => ∀ r ∈ l, r.start = start → r.end ≤ «end»
  | .clear => True

variable {s s' : RangeList T} {nodes : List NodePtr} {c : Call T} {rang : NodePtr → Range T}
  {hist : List (Call T)}

theorem Call.Strict.proper (h : c.Strict nodes) : c.Proper nodes := by
  cases c with
  | add start «end» address => exact ⟨h.1.le, h.2⟩
  | remove start «end» address => exact ⟨h.1.le, h.2⟩
  | clear => trivial

/-- **One call** on ranges in canonical form. -/
theorem CanonicalRanges.onRanges_iff (h : CanonicalRanges l) (hstrict : c.Strict nodes) :
    CanonicalRanges (c.onRanges l) ↔ c.Inside l := by
  cases c with
  | add start «end» address => exact iff_of_true (h.add (r := ⟨start, «end»⟩) hstrict.1) trivial
  | remove start «end» address =>
      have happart := Apart.cutOut hstrict.1 h.noneEmpty.ordered h.apart
      refine Iff.trans ⟨fun hcanonical => hcanonical.noneEmpty, fun hnone => ⟨hnone, happart⟩⟩ ?_
      exact cutOut_nonEmpty_iff hstrict.1 h
  | clear => exact iff_of_true ⟨noneEmpty_nil, List.Pairwise.nil⟩ trivial

/-- **The entries that an iterator visits are in canonical form.** -/
def Canonical (s : RangeList T) : Prop :=
  ∃ nodes, Linked s nodes ∧ CanonicalRanges (nodes.map s.rang)

/-- The call is one the callers may make. -/
def StrictCall (_ : List (Call T)) (s : RangeList T) (c : Call T) : Prop :=
  ∃ nodes, Linked s nodes ∧ c.Strict nodes

/-- The call is one the callers may make, and does not cut the beginning off a range. -/
def InsideCall (_ : List (Call T)) (s : RangeList T) (c : Call T) : Prop :=
  ∃ nodes, Linked s nodes ∧ c.Strict nodes ∧ c.Inside (nodes.map s.rang)

/-- **One step of a run** keeps the canonical form exactly when it cuts no beginning off. -/
theorem Canonical.step_iff (h : Canonical s) (hcall : StrictCall hist s c) (hst : Step s c s') :
    Canonical s' ↔ InsideCall hist s c := by
  obtain ⟨nodes, hlinked, hcanonical⟩ := h
  obtain ⟨nodes', hlinked', hstrict⟩ := hcall
  obtain rfl := TwoWay.unique hlinked' hlinked
  obtain ⟨nodes'', hlinked'', hmap⟩ := hlinked.step hstrict.proper hst
  have hiff := hcanonical.onRanges_iff hstrict
  rw [← hmap] at hiff
  constructor
  · intro ⟨nodes₁, hlinked₁, hcanonical₁⟩
    obtain rfl := TwoWay.unique hlinked'' hlinked₁
    exact ⟨nodes', hlinked', hstrict, hiff.mp hcanonical₁⟩
  · intro ⟨nodes₁, hlinked₁, _, hinside⟩
    obtain rfl := TwoWay.unique hlinked' hlinked₁
    exact ⟨nodes'', hlinked'', hiff.mpr hinside⟩

/-- **`RangeList` STAYS IN CANONICAL FORM** in every run of `add` and `remove` of non-empty
ranges in which no `remove` cuts the beginning off a range: every call returns, and every
range is non-empty and has a gap to every other one.  The next call that returns keeps the
form EXACTLY WHEN it meets the condition. -/
theorem range_list_canonical (hrun : GuardedRun Step InsideCall (empty rang) hist s) :
    Canonical s
      ∧ (∀ c, StrictCall hist s c → ∃ s', Step s c s')
      ∧ ∀ c s', StrictCall hist s c → Step s c s' → (Canonical s' ↔ InsideCall hist s c) := by
  have hcanonical : Canonical s := by
    refine hrun.historyInvariant (fun _ s => Canonical s)
      ⟨[], linked_empty rang, noneEmpty_nil, List.Pairwise.nil⟩ ?_
    intro hist s c s' hs hinside hst
    have hcall : StrictCall hist s c := hinside.elim fun nodes h => ⟨nodes, h.1, h.2.1⟩
    exact (hs.step_iff hcall hst).mpr hinside
  refine ⟨hcanonical, fun c hcall => ?_, fun c s' hcall hst => hcanonical.step_iff hcall hst⟩
  obtain ⟨nodes, hlinked, hstrict⟩ := hcall
  obtain ⟨s', -, hst, -⟩ := hlinked.exec hstrict.proper
  exact ⟨s', hst⟩

/-- The middle of a range removed. -/
theorem range_list_canonical_example :
    ∃ (hist : List (Call Nat)) (s : RangeList Nat),
      GuardedRun Step InsideCall (empty fun _ => ⟨0, 0⟩) hist s ∧ hist.length = 2
        ∧ Canonical s := by
  have h₀ := linked_empty (fun _ => (⟨0, 0⟩ : Range Nat))
  obtain ⟨a₁, s₁, n₁, hp₁, hst₁, h₁, hm₁⟩ := h₀.some_call (.add 10 30) fun a ha => ⟨by decide, ha⟩
  obtain ⟨a₂, s₂, n₂, hp₂, hst₂, h₂, -⟩ := h₁.some_call (.remove 15 20) fun a ha => ⟨by decide, ha⟩
  have hranges : n₁.map s₁.rang = [⟨10, 30⟩] := by
    rw [hm₁]
    simp [Call.onRanges, mergeAll_cons, mergeAll_nil, absorb]
  have hinside : (Call.remove 15 20 a₂).Inside (n₁.map s₁.rang) := by
    rw [hranges]
    simp [Call.Inside]
  have hstrict₁ : (Call.add 10 30 a₁).Strict [] := ⟨by decide, hp₁.2⟩
  have hstrict₂ : (Call.remove 15 20 a₂).Strict n₁ := ⟨by decide, hp₂.2⟩
  have hrun : GuardedRun Step InsideCall (empty fun _ => ⟨0, 0⟩) [.remove 15 20 a₂, .add 10 30 a₁]
      s₂ :=
    (GuardedRun.init.step ⟨_, h₀, hstrict₁, trivial⟩ hst₁).step ⟨_, h₁, hstrict₂, hinside⟩ hst₂
  exact ⟨_, s₂, hrun, rfl, (range_list_canonical hrun).1⟩

/-- **The beginning of a range removed**: `[10, 10)` stays in front of `[20, 30)`. -/
theorem remove_leaves_empty_range :
    ¬ ∀ (hist : List (Call Nat)) (s : RangeList Nat),
      GuardedRun Step StrictCall (empty fun _ => ⟨0, 0⟩) hist s → Canonical s := by
  intro hclaim
  have h₀ := linked_empty (fun _ => (⟨0, 0⟩ : Range Nat))
  obtain ⟨a₁, s₁, n₁, hp₁, hst₁, h₁, hm₁⟩ := h₀.some_call (.add 10 30) fun a ha => ⟨by decide, ha⟩
  obtain ⟨a₂, s₂, n₂, hp₂, hst₂, h₂, hm₂⟩ := h₁.some_call (.remove 10 20) fun a ha =>
    ⟨by decide, ha⟩
  have hranges : n₂.map s₂.rang = [⟨10, 10⟩, ⟨20, 30⟩] := by
    rw [hm₂, hm₁]
    simp [Call.onRanges, mergeAll_cons, mergeAll_nil, absorb, cutOut]
  have hstrict₁ : (Call.add 10 30 a₁).Strict [] := ⟨by decide, hp₁.2⟩
  have hstrict₂ : (Call.remove 10 20 a₂).Strict n₁ := ⟨by decide, hp₂.2⟩
  obtain ⟨nodes, hlinked, hcanonical⟩ := hclaim _ s₂
    ((GuardedRun.init.step ⟨_, h₀, hstrict₁⟩ hst₁).step ⟨_, h₁, hstrict₂⟩ hst₂)
  obtain rfl := TwoWay.unique hlinked h₂
  have hnone := hcanonical.noneEmpty
  rw [hranges] at hnone
  exact absurd (hnone ⟨10, 10⟩ List.mem_cons_self) (Nat.lt_irrefl 10)

end RangeList

end MierOS.Stdlib
