/-
  MierOS.Lib.FirstFit
  **FIRST-FIT SEARCH over a bitmap of used slots**, with the skip-ahead loop
  every allocator of this kind uses: probe the `n` slots from `a`; at the
  first used one, at offset `i`, restart at `a + i + 1`.

  Main results: `scan_sound`, `scan_complete`, `scan_eq_none_imp`,
  `FirstFit.of_hint`.
-/
import Mathlib.Data.List.Basic
import Mathlib.Data.Nat.Find
import Mathlib.Tactic.Common

namespace MierOS.Lib.FirstFit

/-- The `n` slots from `a` on are all free. -/
def FreeRun (used : Nat → Bool) (n a : Nat) : Prop :=
  ∀ i, i < n → used (a + i) = false

/-- `a` is the LOWEST position that starts `n` free slots. -/
def IsFirstFit (used : Nat → Bool) (n a : Nat) : Prop :=
  FreeRun used n a ∧ ∀ c, c < a → ¬ FreeRun used n c

/-- Offset of the first used slot among the `n` from `a` on. -/
def firstUsed (used : Nat → Bool) (n a : Nat) : Option Nat :=
  (List.range n).find? (fun i => used (a + i))

/-- The skip-ahead search; `fuel` bounds the number of restarts. -/
def scan (used : Nat → Bool) (n : Nat) : Nat → Nat → Option Nat
  | 0, _ => none
  | fuel + 1, a =>
      match firstUsed used n a with
      | none => some a
      | some i => scan used n fuel (a + i + 1)

/-! ## §1. One probe. -/

theorem firstUsed_eq_none {used : Nat → Bool} {n a : Nat} :
    firstUsed used n a = none ↔ FreeRun used n a := by
  simp [firstUsed, FreeRun, List.find?_eq_none]

theorem firstUsed_eq_some {used : Nat → Bool} {n a i : Nat}
    (h : firstUsed used n a = some i) : i < n ∧ used (a + i) = true := by
  have hmem := List.mem_of_find?_eq_some h
  have hused := List.find?_some h
  exact ⟨List.mem_range.mp hmem, hused⟩

/-- The slots before the one a probe stops at are free. -/
theorem firstUsed_min {used : Nat → Bool} {n a i : Nat} (h : firstUsed used n a = some i) :
    ∀ j, j < i → used (a + j) = false := by
  intro j hj
  have hmin := (List.find?_range_eq_some.mp h).2.2 j hj
  simpa using hmin

/-- A probe, slot by slot. -/
theorem firstUsed_succ (used : Nat → Bool) (n a : Nat) :
    firstUsed used (n + 1) a
      = if used a then some 0 else (firstUsed used n (a + 1)).map (· + 1) := by
  unfold firstUsed
  rw [List.range_succ_eq_map, List.find?_cons, Nat.add_zero]
  cases hused : used a with
  | true => rfl
  | false =>
      have hslot : (fun i => used (a + i)) ∘ Nat.succ = fun i => used (a + 1 + i) := by
        funext i
        show used (a + (i + 1)) = used (a + 1 + i)
        rw [Nat.add_assoc, Nat.add_comm 1 i]
      rw [List.find?_map, hslot]
      rfl

/-- A used slot inside the window of `c` rules `c` out. -/
theorem not_freeRun_of_used {used : Nat → Bool} {n c p : Nat}
    (hp : used p = true) (hle : c ≤ p) (hlt : p < c + n) : ¬ FreeRun used n c := by
  intro hfree
  have hpc := hfree (p - c) (by omega)
  rw [show c + (p - c) = p by omega, hp] at hpc
  exact absurd hpc (by simp)

/-! ## §2. The loop. -/

/-- **Soundness of the scan.** -/
theorem scan_sound {used : Nat → Bool} {n : Nat} :
    ∀ {fuel a r : Nat}, scan used n fuel a = some r →
      a ≤ r ∧ FreeRun used n r ∧ ∀ c, a ≤ c → c < r → ¬ FreeRun used n c := by
  intro fuel
  induction fuel with
  | zero => intro a r h; simp [scan] at h
  | succ fuel ih =>
      intro a r h
      unfold scan at h
      cases hprobe : firstUsed used n a with
      | none =>
          rw [hprobe] at h
          injection h with h
          subst h
          exact ⟨le_refl _, firstUsed_eq_none.mp hprobe, fun c h1 h2 => absurd h1 (by omega)⟩
      | some i =>
          rw [hprobe] at h
          obtain ⟨hi, hused⟩ := firstUsed_eq_some hprobe
          obtain ⟨hle, hfree, hmin⟩ := ih h
          refine ⟨by omega, hfree, ?_⟩
          intro c hac hcr
          -- positions up to the used slot contain it; the rest is the induction
          by_cases hc : c ≤ a + i
          · exact not_freeRun_of_used hused hc (by omega)
          · exact hmin c (by omega) hcr

/-- **Completeness of the scan.**  It stops at the lowest run at or above its
start, within as many rounds as that run is away. -/
theorem scan_complete {used : Nat → Bool} {n b : Nat} (hfree : FreeRun used n b) :
    ∀ {fuel a : Nat}, a ≤ b → (∀ c, a ≤ c → c < b → ¬ FreeRun used n c) → b - a < fuel →
      scan used n fuel a = some b := by
  intro fuel
  induction fuel with
  | zero => intro a _ _ h; omega
  | succ fuel ih =>
      intro a hab hmin hfuel
      unfold scan
      cases hprobe : firstUsed used n a with
      | none =>
          have hrun := firstUsed_eq_none.mp hprobe
          have : a = b := by
            by_contra hne
            exact hmin a (le_refl _) (by omega) hrun
          simp [this]
      | some i =>
          obtain ⟨hi, hused⟩ := firstUsed_eq_some hprobe
          -- the used slot lies strictly before the run at `b`
          have hlt : a + i < b := by
            by_contra hge
            exact not_freeRun_of_used hused (by omega) (by omega) hfree
          exact ih (by omega) (fun c h1 h2 => hmin c (by omega) h2) (by omega)

/-- **The scan misses no run** within its reach. -/
theorem scan_eq_none_imp {used : Nat → Bool} {n fuel a : Nat} (h : scan used n fuel a = none) :
    ∀ b, a ≤ b → b - a < fuel → ¬ FreeRun used n b := by
  intro b
  induction b using Nat.strongRecOn with
  | ind b ih =>
      intro hab hfuel hfree
      -- the lowest run would have been found
      have hmin : ∀ c, a ≤ c → c < b → ¬ FreeRun used n c := fun c hac hcb =>
        ih c hcb hac (by omega)
      rw [scan_complete hfree hab hmin hfuel] at h
      exact absurd h (by simp)

/-- Nothing is found where everything is used. -/
theorem scan_eq_none {used : Nat → Bool} {n : Nat} (hn : 1 ≤ n) :
    ∀ {fuel a : Nat}, (∀ p, a ≤ p → used p = true) → scan used n fuel a = none := by
  intro fuel a hall
  cases hscan : scan used n fuel a with
  | none => rfl
  | some r =>
      obtain ⟨hle, hfree, -⟩ := scan_sound hscan
      have hused := hall r hle
      exact absurd hfree (not_freeRun_of_used hused (le_refl _) (by omega))

/-! ## §3. Existence and hints. -/

theorem exists_isFirstFit {used : Nat → Bool} {n b : Nat} (h : FreeRun used n b) :
    ∃ a, IsFirstFit used n a := by
  classical
  have hex : ∃ a, FreeRun used n a := ⟨b, h⟩
  exact ⟨Nat.find hex, Nat.find_spec hex, fun c hc => Nat.find_min hex hc⟩

/-- First fit is unique. -/
theorem IsFirstFit.unique {used : Nat → Bool} {n a b : Nat}
    (ha : IsFirstFit used n a) (hb : IsFirstFit used n b) : a = b := by
  rcases Nat.lt_trichotomy a b with h | h | h
  · exact absurd ha.1 (hb.2 a h)
  · exact h
  · exact absurd hb.1 (ha.2 b h)

/-- A run of at least one slot lies at or above a hint that hides nothing. -/
theorem FreeRun.hint_le {used : Nat → Bool} {n a hint : Nat} (hn : 1 ≤ n)
    (hhint : ∀ p, p < hint → used p = true) (h : FreeRun used n a) : hint ≤ a := by
  by_contra hlt
  have hused := hhint a (by omega)
  exact not_freeRun_of_used hused (le_refl _) (by omega) h

/-- **Searching from the hint is searching from zero.** -/
theorem scan_of_hint {used : Nat → Bool} {n a hint fuel : Nat} (hn : 1 ≤ n)
    (hhint : ∀ p, p < hint → used p = true) (ha : IsFirstFit used n a)
    (hfuel : a < fuel) : scan used n fuel hint = some a :=
  scan_complete ha.1 (FreeRun.hint_le hn hhint ha.1) (fun c _ hc => ha.2 c hc) (by omega)

/-- Whatever the scan from such a hint returns is the first fit. -/
theorem isFirstFit_of_scan {used : Nat → Bool} {n a hint fuel : Nat} (hn : 1 ≤ n)
    (hhint : ∀ p, p < hint → used p = true) (h : scan used n fuel hint = some a) :
    IsFirstFit used n a := by
  obtain ⟨_, hfree, hmin⟩ := scan_sound h
  refine ⟨hfree, fun c hc hrun => ?_⟩
  exact hmin c (FreeRun.hint_le hn hhint hrun) hc hrun

end MierOS.Lib.FirstFit
