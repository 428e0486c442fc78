/-
  MierOS.Lib.WrapSearch
  **FIRST-FIT SEARCH ON A RING** of `N` slots, for `n` free slots below a limit
  `L`, by a loop that does not look out for the end of the ring.

  The loop probes `n` slots from `p` on, skips behind the first used one, gives
  up once it stands at or above `L`, and answers `0` then.  It never compares
  the end of a run with `L`, and its position wraps around.

  Main results: `returns_good`, `returns_zero`, `serves_iff`.
-/
import MierOS.Lib.FirstFit
import MierOS.Lib.Loop

namespace MierOS.Lib.WrapSearch

open Lib.FirstFit

/-- One round of the search. -/
def round (used : Nat → Bool) (n N L p : Nat) : Nat ⊕ Nat :=
  if p < L then
    match firstUsed used n p with
    | some i => .inl ((p + i + 1) % N)
    | none => .inr p
  else .inr 0

/-- `n` free slots from `p` on, below the limit. -/
def Good (used : Nat → Bool) (n L p : Nat) : Prop := FreeRun used n p ∧ p + n ≤ L

/-- What an answer should be: `0` when there is no run at or above the start, and
else the place of one. -/
def Serves (used : Nat → Bool) (n L s r : Nat) : Prop :=
  (r = 0 ∧ ∀ p, s ≤ p → ¬ Good used n L p) ∨ (r ≠ 0 ∧ s ≤ r ∧ Good used n L r)

/-- From every position a used slot is met before the last one of the ring. -/
def Exhausted (used : Nat → Bool) (n N L s : Nat) : Prop :=
  ∀ p, s ≤ p → p < L → ∃ i, i < n ∧ p + i + 1 < N ∧ used (p + i) = true

/-- The search comes to a position from which the last slot of the ring is the first
used one. -/
def Wraps (used : Nat → Bool) (n N L s : Nat) : Prop :=
  used (N - 1) = true ∧ ∃ p, s ≤ p ∧ p < L ∧ (p = s ∨ used (p - 1) = true)
    ∧ (∀ x, p ≤ x → x < N - 1 → used x = false) ∧ N ≤ p + n

/-- Where the search answers as it should. -/
def Findable (used : Nat → Bool) (n N L s : Nat) : Prop :=
  ((∃ p, s ≤ p ∧ Good used n L p) ∧ ¬ (s = 0 ∧ Good used n L 0))
    ∨ Exhausted used n N L s
    ∨ ((∀ p, s ≤ p → ¬ Good used n L p) ∧ FreeRun used n 0 ∧ (s = 0 ∨ Wraps used n N L s))

variable {used : Nat → Bool} {n N L s p : Nat}

theorem round_some {i : Nat} (hp : p < L) (h : firstUsed used n p = some i) :
    round used n N L p = .inl ((p + i + 1) % N) := by
  simp [round, hp, h]

theorem round_none (hp : p < L) (h : FreeRun used n p) : round used n N L p = .inr p := by
  simp [round, hp, firstUsed_eq_none.mpr h]

theorem round_limit (hp : L ≤ p) : round used n N L p = .inr 0 := if_neg (Nat.not_lt.mpr hp)

/-- A used slot among those probed stops the probe there or before. -/
theorem exists_firstUsed {j : Nat} (hj : j < n) (hused : used (p + j) = true) :
    ∃ i, firstUsed used n p = some i ∧ i ≤ j := by
  cases h : firstUsed used n p with
  | none =>
      have hfree := firstUsed_eq_none.mp h j hj
      rw [hused] at hfree
      exact absurd hfree (by simp)
  | some i =>
      refine ⟨i, rfl, Nat.le_of_not_lt fun hlt => ?_⟩
      have hfree := firstUsed_min h j hlt
      rw [hused] at hfree
      exact absurd hfree (by simp)

/-- **A run below the limit** is found, or one before it. -/
theorem returns_good (hn : 1 ≤ n) (hLN : L ≤ N) {b : Nat} (hsb : s ≤ b) (hb : Good used n L b) :
    ∃ r, Loop.Returns (round used n N L) s r ∧ s ≤ r ∧ Good used n L r := by
  have hbL := hb.2
  refine Loop.returns_of_measure (fun p => s ≤ p ∧ p ≤ b) (fun p => b - p)
    (fun r => s ≤ r ∧ Good used n L r) ?_ ⟨Nat.le_refl s, hsb⟩
  intro p ⟨hsp, hpb⟩
  cases h : firstUsed used n p with
  | none =>
      have hfree := firstUsed_eq_none.mp h
      exact Or.inr ⟨p, round_none (by omega) hfree, hsp, hfree, by omega⟩
  | some i =>
      obtain ⟨hi, hused⟩ := firstUsed_eq_some h
      -- the used slot is none of those from `b` on
      have hlt : p + i < b := by
        by_contra hge
        exact not_freeRun_of_used hused (by omega) (by omega) hb.1
      refine Or.inl ⟨_, round_some (by omega) h, ?_, ?_⟩
      · rw [Nat.mod_eq_of_lt (by omega)]
        omega
      · rw [Nat.mod_eq_of_lt (by omega)]
        omega

/-- **A search that is stopped everywhere** gives up. -/
theorem returns_zero (hs : s < N) (h : Exhausted used n N L s) :
    Loop.Returns (round used n N L) s 0 := by
  have hround : ∀ p, s ≤ p ∧ p < N →
      (∃ p', round used n N L p = .inl p' ∧ (s ≤ p' ∧ p' < N) ∧ N - p' < N - p)
        ∨ ∃ r, round used n N L p = .inr r ∧ r = 0 := by
    intro p ⟨hsp, hpN⟩
    by_cases hp : p < L
    · obtain ⟨j, hj, hend, hused⟩ := h p hsp hp
      obtain ⟨i, hi, hij⟩ := exists_firstUsed hj hused
      refine Or.inl ⟨_, round_some hp hi, ?_, ?_⟩
      · rw [Nat.mod_eq_of_lt (by omega)]
        omega
      · rw [Nat.mod_eq_of_lt (by omega)]
        omega
    · exact Or.inr ⟨0, round_limit (Nat.le_of_not_lt hp), rfl⟩
  obtain ⟨r, hr, hzero⟩ := Loop.returns_of_measure (fun p => s ≤ p ∧ p < N) (fun p => N - p)
    (fun r => r = 0) hround ⟨Nat.le_refl s, hs⟩
  exact hzero ▸ hr

/-- A search that wraps around to a free slot `0` answers `0`. -/
theorem returns_wraps (hs : s < L) (hLN : L ≤ N) (hnone : ∀ p, s ≤ p → ¬ Good used n L p)
    (hzero : FreeRun used n 0) (h : Wraps used n N L s) :
    Loop.Returns (round used n N L) s 0 := by
  obtain ⟨hlast, q, hsq, hqL, hq, hfree, hreach⟩ := h
  -- up to `q`, and from there to slot `0`
  have hround : ∀ p, (s ≤ p ∧ p ≤ q) ∨ p = 0 →
      (∃ p', round used n N L p = .inl p' ∧ ((s ≤ p' ∧ p' ≤ q) ∨ p' = 0)
          ∧ (if p' = 0 then 0 else q - p' + 1) < if p = 0 then 0 else q - p + 1)
        ∨ ∃ r, round used n N L p = .inr r ∧ r = 0 := by
    intro p hp
    by_cases hpz : p = 0
    · rw [hpz]
      exact Or.inr ⟨0, round_none (by omega) hzero, rfl⟩
    · obtain ⟨hsp, hpq⟩ := hp.resolve_right hpz
      rw [if_neg hpz]
      left
      rcases Nat.lt_or_eq_of_le hpq with hlt | heq
      · -- the slot in front of `q` is used, so the probe stops there or before
        have hused : used (q - 1) = true := hq.resolve_left (by omega)
        have hstop : ∃ i, firstUsed used n p = some i ∧ p + i < q := by
          cases h : firstUsed used n p with
          | none =>
              have hrun := firstUsed_eq_none.mp h
              refine absurd ⟨hrun, ?_⟩ (hnone p hsp)
              by_contra hover
              exact not_freeRun_of_used hused (by omega) (by omega) hrun
          | some i =>
              refine ⟨i, rfl, Nat.lt_of_not_le fun hge => ?_⟩
              have hmin := firstUsed_min h (q - 1 - p) (by omega)
              rw [show p + (q - 1 - p) = q - 1 by omega, hused] at hmin
              exact absurd hmin (by simp)
        obtain ⟨i, hi, hiq⟩ := hstop
        refine ⟨p + i + 1, ?_, Or.inl ⟨by omega, by omega⟩, ?_⟩
        · rw [round_some (by omega) hi, Nat.mod_eq_of_lt (by omega)]
        · rw [if_neg (by omega)]
          omega
      · have hend : used (p + (N - 1 - p)) = true := by
          rw [show p + (N - 1 - p) = N - 1 by omega]
          exact hlast
        obtain ⟨i, hi, hile⟩ := exists_firstUsed (show N - 1 - p < n by omega) hend
        have hlastSlot : p + i = N - 1 := by
          by_contra hne
          have hunused := hfree (p + i) (by omega) (by omega)
          rw [(firstUsed_eq_some hi).2] at hunused
          exact absurd hunused (by simp)
        refine ⟨0, ?_, Or.inr rfl, ?_⟩
        · rw [round_some (by omega) hi, show p + i + 1 = N by omega, Nat.mod_self]
        · rw [if_pos rfl]
          omega
  obtain ⟨r, hr, hrzero⟩ := Loop.returns_of_measure (fun p => (s ≤ p ∧ p ≤ q) ∨ p = 0)
    (fun p => if p = 0 then 0 else q - p + 1) (fun r => r = 0) hround
    (Or.inl ⟨Nat.le_refl s, hsq⟩)
  exact hrzero ▸ hr

/-- **Where nothing stops the search** before the end of the ring, and slot `0` is not
free when it comes there, it does not answer `0`. -/
theorem ne_zero_of_returns (hper : ∀ p, used (p + N) = used p) {q : Nat} (hqL : q < L)
    (hLN : L ≤ N) (hopen : ∀ i, i < n → q + i + 1 < N → used (q + i) = false)
    (hzero : FreeRun used n 0 → s ≠ 0 ∧ (used (N - 1) = true → q + n < N)) (hsq : s ≤ q) {r : Nat}
    (hr : Loop.Returns (round used n N L) s r) : r ≠ 0 := by
  refine Loop.post_of_returns (fun p => p ≤ q ∧ (p = 0 → ¬ FreeRun used n 0)) (fun r => r ≠ 0)
    ?_ ?_ ⟨hsq, fun hs hfree => (hzero hfree).1 hs⟩ hr
  · intro p p' ⟨hpq, _⟩ hround
    cases h : firstUsed used n p with
    | none =>
        rw [round_none (by omega) (firstUsed_eq_none.mp h)] at hround
        exact nomatch hround
    | some i =>
        rw [round_some (by omega) h] at hround
        obtain rfl := Sum.inl.inj hround
        obtain ⟨hi, hused⟩ := firstUsed_eq_some h
        -- the used slots are those before `q` and, once around, the last one
        rcases Nat.lt_trichotomy (p + i + 1) N with hlt | heq | hgt
        · have hbefore : p + i < q := by
            by_contra hge
            have hunused := hopen (p + i - q) (by omega) (by omega)
            rw [show q + (p + i - q) = p + i by omega, hused] at hunused
            exact absurd hunused (by simp)
          rw [Nat.mod_eq_of_lt hlt]
          exact ⟨by omega, fun h => absurd h (by omega)⟩
        · rw [heq, Nat.mod_self]
          refine ⟨Nat.zero_le q, fun _ hfree => ?_⟩
          have hlast : used (N - 1) = true := by
            rw [show N - 1 = p + i by omega]
            exact hused
          have hshort := (hzero hfree).2 hlast
          omega
        · -- once around; not twice, as the probe would have stopped a round earlier
          have hround : i < N := by
            by_contra hge
            have hmin := firstUsed_min h (i - N) (by omega)
            rw [← hper, show p + (i - N) + N = p + i by omega, hused] at hmin
            exact absurd hmin (by simp)
          have hmod : (p + i + 1) % N = p + i + 1 - N := by
            rw [Nat.mod_eq_sub_mod (by omega), Nat.mod_eq_of_lt (by omega)]
          rw [hmod]
          exact ⟨by omega, fun h => absurd h (by omega)⟩
  · intro p r ⟨hpq, hpz⟩ hround hrz
    cases h : firstUsed used n p with
    | none =>
        rw [round_none (by omega) (firstUsed_eq_none.mp h)] at hround
        obtain rfl := Sum.inr.inj hround
        exact hpz hrz (hrz ▸ firstUsed_eq_none.mp h)
    | some i =>
        rw [round_some (by omega) h] at hround
        exact nomatch hround

/-- The first position at or above `s` from which no used slot is met before the last
one of the ring. -/
theorem exists_open (h : ¬ Exhausted used n N L s) :
    ∃ q, s ≤ q ∧ q < L ∧ (∀ i, i < n → q + i + 1 < N → used (q + i) = false)
      ∧ (q = s ∨ used (q - 1) = true) := by
  classical
  have hex : ∃ q, s ≤ q ∧ q < L ∧ ∀ i, i < n → q + i + 1 < N → used (q + i) = false := by
    by_contra hno
    refine h fun p hsp hpL => ?_
    by_contra hopen
    refine hno ⟨p, hsp, hpL, fun i hi hend => ?_⟩
    by_contra hused
    exact hopen ⟨i, hi, hend, by simpa using hused⟩
  obtain ⟨hsq, hqL, hopen⟩ := Nat.find_spec hex
  refine ⟨Nat.find hex, hsq, hqL, hopen, ?_⟩
  by_contra hno
  rw [not_or] at hno
  -- else the position before would do as well
  refine Nat.find_min hex (m := Nat.find hex - 1) (by omega) ⟨by omega, by omega, ?_⟩
  intro i hi hend
  cases i with
  | zero => simpa using hno.2
  | succ i =>
      have hnext := hopen i (by omega) (by omega)
      rwa [show Nat.find hex - 1 + (i + 1) = Nat.find hex + i by omega]

/-- **Where the search answers as it should.** -/
theorem serves_iff (hn : 1 ≤ n) (hper : ∀ p, used (p + N) = used p) (hs : s < L) (hLN : L ≤ N) :
    (∃ r, Loop.Returns (round used n N L) s r ∧ Serves used n L s r) ↔ Findable used n N L s := by
  constructor
  · intro ⟨r, hr, hserves⟩
    by_contra hnot
    unfold Findable at hnot
    rw [not_or, not_or] at hnot
    obtain ⟨hfound, hexhausted, hzero⟩ := hnot
    by_cases hrange : ∃ p, s ≤ p ∧ Good used n L p
    · -- a run, but at slot `0`
      have hboth : s = 0 ∧ Good used n L 0 := by
        by_contra hno
        exact hfound ⟨hrange, hno⟩
      obtain ⟨hs0, hgood⟩ := hboth
      rw [hs0] at hr
      have hrz : r = 0 := hr.unique (Loop.Returns.inr (round_none (by omega) hgood.1))
      rcases hserves with ⟨_, hnone⟩ | ⟨hne, _⟩
      · exact hnone 0 (by omega) hgood
      · exact hne hrz
    · have hnone : ∀ p, s ≤ p → ¬ Good used n L p := fun p hsp hgood => hrange ⟨p, hsp, hgood⟩
      obtain ⟨q, hsq, hqL, hopen, hq⟩ := exists_open hexhausted
      have hne : r ≠ 0 := by
        refine ne_zero_of_returns hper hqL hLN hopen (fun hfree => ?_) hsq hr
        refine ⟨fun hs0 => hzero ⟨hnone, hfree, Or.inl hs0⟩, fun hlast => ?_⟩
        by_contra hreach
        refine hzero ⟨hnone, hfree, Or.inr ⟨hlast, q, hsq, hqL, hq, ?_, by omega⟩⟩
        intro x hqx hxN
        have hunused := hopen (x - q) (by omega) (by omega)
        rwa [show q + (x - q) = x by omega] at hunused
      rcases hserves with ⟨hrz, _⟩ | ⟨_, hsr, hgood⟩
      · exact hne hrz
      · exact hnone r hsr hgood
  · intro h
    rcases h with ⟨⟨b, hsb, hb⟩, hnotzero⟩ | hexhausted | ⟨hnone, hfree, hs0 | hwraps⟩
    · obtain ⟨r, hr, hsr, hgood⟩ := returns_good hn hLN hsb hb
      refine ⟨r, hr, Or.inr ⟨fun hrz => hnotzero ⟨by omega, hrz ▸ hgood⟩, hsr, hgood⟩⟩
    · refine ⟨0, returns_zero (by omega) hexhausted, Or.inl ⟨rfl, fun p hsp hgood => ?_⟩⟩
      have hlimit := hgood.2
      obtain ⟨i, hi, _, hused⟩ := hexhausted p hsp (by omega)
      exact not_freeRun_of_used hused (by omega) (by omega) hgood.1
    · refine ⟨0, ?_, Or.inl ⟨rfl, hnone⟩⟩
      rw [hs0]
      exact Loop.Returns.inr (round_none (by omega) hfree)
    · exact ⟨0, returns_wraps hs hLN hnone hfree hwraps, Or.inl ⟨rfl, hnone⟩⟩

end MierOS.Lib.WrapSearch
