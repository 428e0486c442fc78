/-
  MierOS.Lib.Cursor
  **SCANS OVER PACKED RECORDS**: a cursor that walks through segments of one size and at
  each record is told by the record itself how far to move.

  A visit of the cursor moves it by a number of bytes, or stops the scan with a result.
  A record that moves it by nothing is visited for ever.

  Main results: `scanSegment`, `scanSegments`, `Ends`, `Observed.ends_iff`,
  `Tiled`, `scan_tiled`.
-/
import Mathlib.Data.List.Basic

namespace MierOS.Lib

/-- What a visit does: move the cursor by `n`, or stop. -/
inductive Visit (S R : Type) where
  | move (n : Nat) (s : S)
  | stop (r : R)

variable {S R T E : Type}

/-! ## §1. The scan. -/

/-- The cursor goes through one segment from `o` on; `none` when the rounds are used up. -/
def scanSegment (visit : Nat → S → Visit S R) (size : Nat) : Nat → Nat → S → Option (Except R S)
  | 0, o, s => if o < size then none else some (.ok s)
  | fuel + 1, o, s =>
      if o < size then
        match visit o s with
        | .move n s => scanSegment visit size fuel (o + n) s
        | .stop r => some (.error r)
      else some (.ok s)

/-- `left` segments from segment `i` on. -/
def scanSegments (visit : Nat → Nat → S → Visit S R) (size fuel : Nat) :
    Nat → Nat → S → Option (Except R S)
  | 0, _, s => some (.ok s)
  | left + 1, i, s =>
      match scanSegment (visit i) size fuel 0 s with
      | some (.ok s) => scanSegments visit size fuel left (i + 1) s
      | result => result

section Scan

variable {visit : Nat → S → Visit S R} {size : Nat}

theorem scanSegment_behind {o : Nat} (ho : size ≤ o) (fuel : Nat) (s : S) :
    scanSegment visit size fuel o s = some (.ok s) := by
  cases fuel <;> exact if_neg (Nat.not_lt.mpr ho)

theorem scanSegment_spent {o : Nat} (ho : o < size) (s : S) :
    scanSegment visit size 0 o s = none :=
  if_pos ho

theorem scanSegment_move {o n fuel : Nat} {s s' : S} (ho : o < size)
    (h : visit o s = .move n s') :
    scanSegment visit size (fuel + 1) o s = scanSegment visit size fuel (o + n) s' := by
  unfold scanSegment
  rw [if_pos ho, h]
  cases fuel <;> rfl

theorem scanSegment_stop {o fuel : Nat} {s : S} {r : R} (ho : o < size) (h : visit o s = .stop r) :
    scanSegment visit size (fuel + 1) o s = some (.error r) := by
  unfold scanSegment
  rw [if_pos ho, h]

/-- More rounds change nothing. -/
theorem scanSegment_mono {fuel fuel' o : Nat} {s : S} {result : Except R S} (hle : fuel ≤ fuel')
    (h : scanSegment visit size fuel o s = some result) :
    scanSegment visit size fuel' o s = some result := by
  induction fuel generalizing fuel' o s with
  | zero =>
      by_cases ho : o < size
      · rw [scanSegment_spent ho] at h
        cases h
      · rw [scanSegment_behind (Nat.not_lt.mp ho)] at h ⊢
        exact h
  | succ fuel ih =>
      obtain ⟨d, rfl⟩ := Nat.exists_eq_add_of_le hle
      rw [show fuel + 1 + d = (fuel + d) + 1 by omega]
      by_cases ho : o < size
      · cases hvisit : visit o s with
        | move n s' =>
            rw [scanSegment_move ho hvisit] at h ⊢
            exact ih (Nat.le_add_right _ _) h
        | stop r =>
            rw [scanSegment_stop ho hvisit] at h ⊢
            exact h
      · rw [scanSegment_behind (Nat.not_lt.mp ho)] at h ⊢
        exact h

/-- A record that moves the cursor by nothing, and does so again, is never left. -/
theorem scanSegment_stuck {Inv : S → Prop} {o : Nat} (ho : o < size)
    (hstuck : ∀ s s', Inv s → visit o s = .move 0 s' →
      Inv s' ∧ ∃ s'', visit o s' = .move 0 s'')
    (fuel : Nat) {s s' : S} (hs : Inv s) (h : visit o s = .move 0 s') :
    scanSegment visit size fuel o s = none := by
  induction fuel generalizing s s' with
  | zero => exact scanSegment_spent ho s
  | succ fuel ih =>
      obtain ⟨hs', s'', hnext⟩ := hstuck s s' hs h
      rw [scanSegment_move ho h]
      exact ih hs' hnext

theorem scanSegments_mono {visit : Nat → Nat → S → Visit S R} {fuel fuel' left i : Nat} {s : S}
    {result : Except R S} (hle : fuel ≤ fuel')
    (h : scanSegments visit size fuel left i s = some result) :
    scanSegments visit size fuel' left i s = some result := by
  induction left generalizing i s with
  | zero => exact h
  | succ left ih =>
      unfold scanSegments at h ⊢
      cases hseg : scanSegment (visit i) size fuel 0 s with
      | none =>
          rw [hseg] at h
          cases h
      | some r =>
          rw [hseg] at h
          rw [scanSegment_mono hle hseg]
          cases r with
          | error r => exact h
          | ok s' => exact ih h

end Scan

/-! ## §2. Scans that end. -/

/-- **The scan ends**: told from what is observed of the state, by the records at which
the scan stops and those that move the cursor on. -/
inductive Ends (stops : Nat → Nat → T → Prop) (moves : Nat → Nat → T → Nat → T → Prop)
    (size : Nat) : Nat → Nat → Nat → T → Prop
  | done {i o t} : Ends stops moves size 0 i o t
  | turn {left i o t} : size ≤ o → Ends stops moves size left (i + 1) 0 t →
      Ends stops moves size (left + 1) i o t
  | stop {left i o t} : o < size → stops i o t → Ends stops moves size (left + 1) i o t
  | move {left i o t n u} : o < size → moves i o t n u → n ≠ 0 →
      Ends stops moves size (left + 1) i (o + n) u → Ends stops moves size (left + 1) i o t

/-- The scan ends, and where it stops the result is allowed. -/
def ScanEnds (visit : Nat → Nat → S → Visit S R) (size left i : Nat) (Allowed : R → Prop)
    (s : S) : Prop :=
  ∃ fuel result, scanSegments visit size fuel left i s = some result
    ∧ ∀ r, result = .error r → Allowed r

/-- **What the visits do, as far as it is observed**, in states that meet an invariant. -/
structure Observed (visit : Nat → Nat → S → Visit S R) (size : Nat) (Inv : S → Prop)
    (observe : S → T) (Allowed : R → Prop) (stops : Nat → Nat → T → Prop)
    (moves : Nat → Nat → T → Nat → T → Prop) : Prop where
  stop : ∀ i o s, Inv s → o < size →
    (stops i o (observe s) ↔ ∃ r, visit i o s = .stop r ∧ Allowed r)
  move : ∀ i o s, Inv s → o < size → ∀ n t,
    (moves i o (observe s) n t ↔ ∃ s', visit i o s = .move n s' ∧ observe s' = t)
  keeps : ∀ i o s n s', Inv s → o < size → visit i o s = .move n s' → Inv s'
  again : ∀ i o s s', Inv s → o < size → visit i o s = .move 0 s' →
    ∃ s'', visit i o s' = .move 0 s''

namespace Observed

variable {visit : Nat → Nat → S → Visit S R} {size : Nat} {Inv : S → Prop} {observe : S → T}
  {Allowed : R → Prop} {stops : Nat → Nat → T → Prop} {moves : Nat → Nat → T → Nat → T → Prop}
  (h : Observed visit size Inv observe Allowed stops moves)
include h

/-- The cursor in the middle of a segment: what follows when the rest of it is scanned. -/
theorem ends_of_segment {left i : Nat} (fuel : Nat) {o : Nat} {s : S} (hs : Inv s)
    {result : Except R S} (hscan : scanSegment (visit i) size fuel o s = some result)
    (hstop : ∀ r, result = .error r → Allowed r)
    (hrest : ∀ s', result = .ok s' → Inv s' → Ends stops moves size left (i + 1) 0 (observe s')) :
    Ends stops moves size (left + 1) i o (observe s) := by
  induction fuel generalizing o s with
  | zero =>
      by_cases ho : o < size
      · rw [scanSegment_spent ho] at hscan
        cases hscan
      · rw [scanSegment_behind (Nat.not_lt.mp ho)] at hscan
        exact Ends.turn (Nat.not_lt.mp ho) (hrest s (Option.some.inj hscan).symm hs)
  | succ fuel ih =>
      by_cases ho : o < size
      · cases hvisit : visit i o s with
        | move n s' =>
            rw [scanSegment_move ho hvisit] at hscan
            -- a record of no size is visited for ever, and the rounds run out
            have hn : n ≠ 0 := by
              rintro rfl
              obtain ⟨s'', hnext⟩ := h.again i o s s' hs ho hvisit
              have hs' := h.keeps i o s 0 s' hs ho hvisit
              have hstuck := scanSegment_stuck ho (fun s s' hs hvisit =>
                ⟨h.keeps i o s 0 s' hs ho hvisit, h.again i o s s' hs ho hvisit⟩) fuel hs' hnext
              rw [Nat.add_zero, hstuck] at hscan
              cases hscan
            refine Ends.move ho ((h.move i o s hs ho n _).mpr ⟨s', hvisit, rfl⟩) hn ?_
            exact ih (h.keeps i o s n s' hs ho hvisit) hscan
        | stop r =>
            rw [scanSegment_stop ho hvisit] at hscan
            have hr := hstop r (Option.some.inj hscan).symm
            exact Ends.stop ho ((h.stop i o s hs ho).mpr ⟨r, hvisit, hr⟩)
      · rw [scanSegment_behind (Nat.not_lt.mp ho)] at hscan
        exact Ends.turn (Nat.not_lt.mp ho) (hrest s (Option.some.inj hscan).symm hs)

theorem ends_of_scan {left i : Nat} {s : S} (hs : Inv s)
    (hscan : ScanEnds visit size left i Allowed s) :
    Ends stops moves size left i 0 (observe s) := by
  obtain ⟨fuel, result, hscan, hallowed⟩ := hscan
  induction left generalizing i s with
  | zero => exact Ends.done
  | succ left ih =>
      unfold scanSegments at hscan
      cases hseg : scanSegment (visit i) size fuel 0 s with
      | none =>
          rw [hseg] at hscan
          cases hscan
      | some r =>
          rw [hseg] at hscan
          cases r with
          | error r =>
              obtain rfl := Option.some.inj hscan
              exact h.ends_of_segment fuel hs hseg hallowed fun s' hok => by cases hok
          | ok s₁ =>
              refine h.ends_of_segment fuel hs hseg (fun r herr => by cases herr) ?_
              intro s' hok hs'
              obtain rfl := Except.ok.inj hok
              exact ih hs' hscan

/-- The cursor at `o` of segment `i`, with enough rounds for what is left. -/
theorem scan_of_ends {left i o : Nat} {t : T} (hends : Ends stops moves size left i o t) :
    ∀ s, Inv s → observe s = t → ∃ fuel result,
      (match left with
        | 0 => some (.ok s)
        | left + 1 =>
            match scanSegment (visit i) size fuel o s with
            | some (.ok s) => scanSegments visit size fuel left (i + 1) s
            | result => result) = some result
        ∧ ∀ r, result = .error r → Allowed r := by
  -- the induction is on how the scan ends, and the rounds are counted on the way
  induction hends with
  | done => exact fun s _ _ => ⟨0, .ok s, rfl, fun r herr => by cases herr⟩
  | @turn left i o t ho _ ih =>
      intro s hs ht
      obtain ⟨fuel, result, hscan, hallowed⟩ := ih s hs ht
      refine ⟨fuel, result, ?_, hallowed⟩
      dsimp only
      rw [scanSegment_behind ho]
      cases left <;> exact hscan
  | @stop left i o t ho hstop =>
      intro s hs ht
      obtain ⟨r, hvisit, hr⟩ := (h.stop i o s hs ho).mp (ht ▸ hstop)
      refine ⟨1, .error r, ?_, fun r' herr => Except.error.inj herr ▸ hr⟩
      dsimp only
      rw [scanSegment_stop ho hvisit]
  | @move left i o t n u ho hmove hn _ ih =>
      intro s hs ht
      obtain ⟨s', hvisit, ht'⟩ := (h.move i o s hs ho n u).mp (ht ▸ hmove)
      obtain ⟨fuel, result, hscan, hallowed⟩ := ih s' (h.keeps i o s n s' hs ho hvisit) ht'
      refine ⟨fuel + 1, result, ?_, hallowed⟩
      dsimp only at hscan ⊢
      rw [scanSegment_move ho hvisit]
      -- the segments behind this one have a round to spare
      cases hseg : scanSegment (visit i) size fuel (o + n) s' with
      | none =>
          rw [hseg] at hscan
          cases hscan
      | some r =>
          rw [hseg] at hscan
          cases r with
          | error r => exact hscan
          | ok s₁ => exact scanSegments_mono (Nat.le_succ fuel) hscan

/-- **WHEN A SCAN ENDS** in an allowed result. -/
theorem ends_iff {left i : Nat} {s : S} (hs : Inv s) :
    ScanEnds visit size left i Allowed s ↔ Ends stops moves size left i 0 (observe s) := by
  refine ⟨h.ends_of_scan hs, fun hends => ?_⟩
  obtain ⟨fuel, result, hscan, hallowed⟩ := h.scan_of_ends hends s hs rfl
  refine ⟨fuel, result, ?_, hallowed⟩
  cases left <;> exact hscan

end Observed

/-! ## §3. Segments tiled by records. -/

/-- From `o` on a segment is tiled by these records: `record o e n` says that `e` stands
at `o` and takes `n` bytes. -/
inductive Tiled (record : Nat → E → Nat → Prop) (size : Nat) : Nat → List E → Prop
  | nil : Tiled record size size []
  | cons {o n e es} : record o e n → n ≠ 0 → o + n ≤ size → Tiled record size (o + n) es →
      Tiled record size o (e :: es)

/-- A visit of a record: what it does to the state, and the move. -/
def Visit.of (n : Nat) : Except R S → Visit S R
  | .ok s => .move n s
  | .error r => .stop r

/-- **A tiled segment**: the scan is a fold over its records. -/
theorem scanSegment_tiled {visit : Nat → S → Visit S R} {record : Nat → E → Nat → Prop}
    {size : Nat} {step : S → E → Except R S}
    (hvisit : ∀ o e n s, n ≠ 0 → o + n ≤ size → record o e n →
      visit o s = Visit.of n (step s e))
    {fuel o : Nat} {es : List E} (htiled : Tiled record size o es) (hfuel : size ≤ o + fuel)
    (s : S) : scanSegment visit size fuel o s = some (es.foldlM step s) := by
  induction fuel generalizing o es s with
  | zero =>
      cases htiled with
      | nil => exact scanSegment_behind (Nat.le_refl _) 0 s
      | cons hrecord hn hin _ => omega
  | succ fuel ih =>
      cases htiled with
      | nil => exact scanSegment_behind (Nat.le_refl _) _ s
      | @cons _ n e es hrecord hn hin hrest =>
          have ho : o < size := by omega
          have h := hvisit o e n s hn hin hrecord
          rw [List.foldlM_cons]
          cases hstep : step s e with
          | error r =>
              rw [hstep] at h
              exact scanSegment_stop ho h
          | ok s' =>
              rw [hstep] at h
              rw [scanSegment_move ho h]
              exact ih hrest (by omega) s'

/-- **Tiled segments**, one behind the other. -/
theorem scanSegments_tiled {visit : Nat → Nat → S → Visit S R}
    {record : Nat → Nat → E → Nat → Prop} {size : Nat} {step : S → E → Except R S}
    (hvisit : ∀ i o e n s, n ≠ 0 → o + n ≤ size → record i o e n →
      visit i o s = Visit.of n (step s e))
    {fuel : Nat} (hfuel : size ≤ fuel) {es : Nat → List E} (left i : Nat)
    (htiled : ∀ j, j < left → Tiled (record (i + j)) size 0 (es (i + j))) (s : S) :
    scanSegments visit size fuel left i s
      = some (((List.range left).flatMap fun j => es (i + j)).foldlM step s) := by
  induction left generalizing i s with
  | zero => rfl
  | succ left ih =>
      have hfirst : scanSegment (visit i) size fuel 0 s = some ((es (i + 0)).foldlM step s) :=
        scanSegment_tiled (hvisit i) (htiled 0 (Nat.zero_lt_succ left)) (by omega) s
      -- the segments behind this one are counted from it
      have hothers := ih (i + 1) fun j hj => by
        rw [Nat.add_assoc, Nat.add_comm 1 j]
        exact htiled (j + 1) (Nat.succ_lt_succ hj)
      unfold scanSegments
      rw [hfirst, List.range_succ_eq_map, List.flatMap_cons, List.foldlM_append, List.flatMap_map,
        Nat.add_zero]
      cases (es i).foldlM step s with
      | error r => rfl
      | ok s' =>
          rw [show (fun j => es (i + Nat.succ j)) = fun j => es (i + 1 + j) from
            funext fun j => by rw [Nat.add_assoc, Nat.add_comm 1 j]]
          exact hothers s'

/-- **A tiled scan** is a fold over all the records. -/
theorem scan_tiled {visit : Nat → Nat → S → Visit S R} {record : Nat → Nat → E → Nat → Prop}
    {size : Nat} {step : S → E → Except R S}
    (hvisit : ∀ i o e n s, n ≠ 0 → o + n ≤ size → record i o e n →
      visit i o s = Visit.of n (step s e))
    {fuel : Nat} (hfuel : size ≤ fuel) {es : Nat → List E} {count : Nat}
    (htiled : ∀ i, i < count → Tiled (record i) size 0 (es i)) (s : S) :
    scanSegments visit size fuel count 0 s
      = some (((List.range count).flatMap es).foldlM step s) := by
  have hscan := scanSegments_tiled hvisit hfuel count 0 (fun j hj => by
    rw [Nat.zero_add]
    exact htiled j hj) s
  simp only [Nat.zero_add] at hscan
  exact hscan

end MierOS.Lib
