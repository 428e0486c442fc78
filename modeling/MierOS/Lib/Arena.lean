/-
  MierOS.Lib.Arena
  **BLOCKS IN AN INTERVAL**, in order and without overlap.

  A block `b` takes the addresses from `start b` to `stop b`.  `Packed lo l hi`
  says that the blocks of `l` lie in this order between `lo` and `hi`.

  Main results: `Packed.insert`, `Packed.erase`, `Packed.apart`,
  `Packed.used_le`, `Fits.used_le`, `FirstFit`.
-/
import Mathlib.Algebra.GroupWithZero.Nat
import Mathlib.Data.List.Basic

namespace MierOS.Lib.Arena

variable {B : Type*} (start stop : B → Nat)

/-- The blocks of `l` lie in order between `lo` and `hi`. -/
def Packed : Nat → List B → Nat → Prop
  | lo, [], hi => lo ≤ hi
  | lo, b :: l, hi => lo ≤ start b ∧ start b < stop b ∧ Packed (stop b) l hi

/-- Where the last block ends. -/
def top (lo : Nat) (l : List B) : Nat := (l.getLast?.map stop).getD lo

/-- Where the first block starts. -/
def bottom (l : List B) (hi : Nat) : Nat := (l.head?.map start).getD hi

/-- The room the blocks take. -/
def used (l : List B) : Nat := (l.map fun b => stop b - start b).sum

/-- There is a gap of `n` between the blocks of `l₁` and those of `l₂`. -/
def Fits (n lo : Nat) (l₁ l₂ : List B) (hi : Nat) : Prop := top stop lo l₁ + n ≤ bottom start l₂ hi

instance (n lo : Nat) (l₁ l₂ : List B) (hi : Nat) : Decidable (Fits start stop n lo l₁ l₂ hi) :=
  inferInstanceAs (Decidable (_ ≤ _))

/-- No gap of `n` has `k` blocks or fewer before it. -/
def NoFitUpTo (n lo : Nat) (l : List B) (hi k : Nat) : Prop :=
  ∀ l₁ l₂, l = l₁ ++ l₂ → l₁.length ≤ k → ¬ Fits start stop n lo l₁ l₂ hi

/-- Somewhere there is a gap of `n`. -/
def HasFit (n lo : Nat) (l : List B) (hi : Nat) : Prop :=
  ∃ l₁ l₂, l = l₁ ++ l₂ ∧ Fits start stop n lo l₁ l₂ hi

/-- The lowest gap of `n` is the one between `l₁` and `l₂`. -/
structure FirstFit (n lo : Nat) (l₁ l₂ : List B) (hi : Nat) : Prop where
  fits : Fits start stop n lo l₁ l₂ hi
  lowest : ∀ l₁' l₂', l₁ ++ l₂ = l₁' ++ l₂' → l₁'.length < l₁.length →
    ¬ Fits start stop n lo l₁' l₂' hi

section

variable {start stop} {lo hi n k : Nat} {b c : B} {l l₁ l₂ : List B}

@[simp] theorem top_nil : top stop lo ([] : List B) = lo := rfl

@[simp] theorem top_concat : top stop lo (l ++ [b]) = stop b := by simp [top]

@[simp] theorem top_cons : top stop lo (b :: l) = top stop (stop b) l := by
  cases l with
  | nil => rfl
  | cons c l => simp [top, List.getLast?_eq_getLast_of_ne_nil]

@[simp] theorem bottom_nil : bottom start ([] : List B) hi = hi := rfl

@[simp] theorem bottom_cons : bottom start (b :: l) hi = start b := rfl

@[simp] theorem used_nil : used start stop ([] : List B) = 0 := rfl

@[simp] theorem used_cons : used start stop (b :: l) = (stop b - start b) + used start stop l := by
  simp [used]

@[simp] theorem used_append :
    used start stop (l₁ ++ l₂) = used start stop l₁ + used start stop l₂ := by
  simp [used, List.sum_append]

/-! ## §1. Order. -/

namespace Packed

theorem le (h : Packed start stop lo l hi) : lo ≤ hi := by
  induction l generalizing lo with
  | nil => exact h
  | cons b l ih =>
      have hrest := ih h.2.2
      have hb := h.1
      have hlt := h.2.1
      omega

/-- Blocks in two parts. -/
theorem append_iff : Packed start stop lo (l₁ ++ l₂) hi
    ↔ Packed start stop lo l₁ (bottom start l₂ hi)
      ∧ Packed start stop (top stop lo l₁) l₂ hi := by
  induction l₁ generalizing lo with
  | nil =>
      constructor
      · intro h
        refine ⟨?_, h⟩
        cases l₂ with
        | nil => exact h
        | cons b l₂ => exact h.1
      · exact fun h => h.2
  | cons b l₁ ih =>
      show _ ∧ _ ∧ Packed start stop (stop b) (l₁ ++ l₂) hi ↔ _
      rw [ih, top_cons]
      exact ⟨fun ⟨h₁, h₂, h₃, h₄⟩ => ⟨⟨h₁, h₂, h₃⟩, h₄⟩, fun ⟨⟨h₁, h₂, h₃⟩, h₄⟩ => ⟨h₁, h₂, h₃, h₄⟩⟩

/-- The bounds may be widened. -/
theorem mono {lo' hi' : Nat} (h : Packed start stop lo l hi) (hlo : lo' ≤ lo) (hhi : hi ≤ hi') :
    Packed start stop lo' l hi' := by
  induction l generalizing lo lo' with
  | nil =>
      have hle : lo ≤ hi := h
      show lo' ≤ hi'
      omega
  | cons b l ih => exact ⟨Nat.le_trans hlo h.1, h.2.1, ih h.2.2 (Nat.le_refl _)⟩

/-- The upper bound may come down to the last block. -/
theorem cap {hi' : Nat} (h : Packed start stop lo l hi) (htop : top stop lo l ≤ hi') :
    Packed start stop lo l hi' := by
  induction l generalizing lo with
  | nil => exact htop
  | cons b l ih =>
      rw [top_cons] at htop
      exact ⟨h.1, h.2.1, ih h.2.2 htop⟩

/-- A block lies inside. -/
theorem inside (h : Packed start stop lo l hi) (hb : b ∈ l) :
    lo ≤ start b ∧ start b < stop b ∧ stop b ≤ hi := by
  obtain ⟨l₁, l₂, rfl⟩ := List.append_of_mem hb
  obtain ⟨hl₁, hlo, hlt, hl₂⟩ := append_iff.mp h
  have hle := hl₁.le
  rw [bottom_cons] at hle
  exact ⟨hle, hlt, hl₂.le⟩

/-- **A block put into a gap.** -/
theorem insert (h : Packed start stop lo (l₁ ++ l₂) hi) (hlo : top stop lo l₁ ≤ start b)
    (hlt : start b < stop b) (hhi : stop b ≤ bottom start l₂ hi) :
    Packed start stop lo (l₁ ++ b :: l₂) hi := by
  obtain ⟨hl₁, hl₂⟩ := append_iff.mp h
  refine append_iff.mpr ⟨hl₁.cap hlo, hlo, hlt, ?_⟩
  cases l₂ with
  | nil => exact hhi
  | cons c l₂ => exact ⟨hhi, hl₂.2.1, hl₂.2.2⟩

/-- **A block taken away.** -/
theorem erase (h : Packed start stop lo (l₁ ++ b :: l₂) hi) :
    Packed start stop lo (l₁ ++ l₂) hi := by
  obtain ⟨hl₁, hlo, hlt, hl₂⟩ := append_iff.mp h
  have hle : stop b ≤ bottom start l₂ hi := by
    cases l₂ with
    | nil => exact hl₂
    | cons c l₂ => exact hl₂.1
  rw [bottom_cons] at hl₁
  exact append_iff.mpr ⟨hl₁.mono (Nat.le_refl _) (by omega), hl₂.mono (by omega) (Nat.le_refl _)⟩

/-- The blocks before one and those behind it. -/
theorem beside (h : Packed start stop lo (l₁ ++ b :: l₂) hi) :
    (∀ c ∈ l₁, stop c ≤ start b) ∧ ∀ c ∈ l₂, stop b ≤ start c := by
  obtain ⟨hl₁, -, -, hl₂⟩ := append_iff.mp h
  rw [bottom_cons] at hl₁
  exact ⟨fun c hc => (hl₁.inside hc).2.2, fun c hc => (hl₂.inside hc).1⟩

/-- **Two blocks share no address.** -/
theorem apart (h : Packed start stop lo l hi) (hb : b ∈ l) (hc : c ∈ l) (hne : b ≠ c) :
    stop b ≤ start c ∨ stop c ≤ start b := by
  obtain ⟨l₁, l₂, rfl⟩ := List.append_of_mem hb
  obtain ⟨hbefore, hbehind⟩ := h.beside
  rcases List.mem_append.mp hc with hc | hc
  · exact Or.inr (hbefore c hc)
  · rcases List.mem_cons.mp hc with rfl | hc
    · exact absurd rfl hne
    · exact Or.inl (hbehind c hc)

/-- No two blocks start at one address. -/
theorem starts_nodup (h : Packed start stop lo l hi) : (l.map start).Nodup := by
  induction l generalizing lo with
  | nil => exact List.nodup_nil
  | cons b l ih =>
      refine List.nodup_cons.mpr ⟨?_, ih h.2.2⟩
      intro hmem
      obtain ⟨c, hc, heq⟩ := List.mem_map.mp hmem
      have hlt := h.2.1
      have hle := (h.2.2.inside hc).1
      omega

theorem used_le (h : Packed start stop lo l hi) : lo + used start stop l ≤ hi := by
  induction l generalizing lo with
  | nil => exact h
  | cons b l ih =>
      have hrest := ih h.2.2
      have hlo := h.1
      have hlt := h.2.1
      rw [used_cons]
      omega

end Packed

/-! ## §2. Gaps. -/

/-- **A gap leaves room for the blocks.** -/
theorem Fits.used_le (hfits : Fits start stop n lo l₁ l₂ hi)
    (h : Packed start stop lo (l₁ ++ l₂) hi) : lo + used start stop (l₁ ++ l₂) + n ≤ hi := by
  obtain ⟨hl₁, hl₂⟩ := Packed.append_iff.mp h
  have hleft := (hl₁.cap (Nat.le_refl _)).used_le
  have hright : bottom start l₂ hi + used start stop l₂ ≤ hi := by
    cases l₂ with
    | nil => exact Nat.le_refl hi
    | cons b l₂ =>
        have hrest : Packed start stop (start b) (b :: l₂) hi :=
          ⟨Nat.le_refl _, hl₂.2.1, hl₂.2.2⟩
        exact hrest.used_le
  unfold Fits at hfits
  rw [used_append]
  omega

theorem HasFit.used_le (hfit : HasFit start stop n lo l hi) (h : Packed start stop lo l hi) :
    lo + used start stop l + n ≤ hi := by
  obtain ⟨l₁, l₂, rfl, hfits⟩ := hfit
  exact hfits.used_le h

/-- The search before the first block. -/
theorem noFitUpTo_zero (hno : ¬ Fits start stop n lo [] l hi) : NoFitUpTo start stop n lo l hi 0 := by
  intro l₁ l₂ heq hlen
  obtain rfl := List.eq_nil_of_length_eq_zero (Nat.le_zero.mp hlen)
  rw [List.nil_append] at heq
  exact heq ▸ hno

/-- The search behind one more block. -/
theorem NoFitUpTo.succ (h : NoFitUpTo start stop n lo (l₁ ++ b :: l₂) hi l₁.length)
    (hno : ¬ Fits start stop n lo (l₁ ++ [b]) l₂ hi) :
    NoFitUpTo start stop n lo (l₁ ++ b :: l₂) hi (l₁.length + 1) := by
  intro l₁' l₂' heq hlen
  by_cases hlt : l₁'.length ≤ l₁.length
  · exact h l₁' l₂' heq hlt
  · have hsplit : (l₁ ++ [b]) ++ l₂ = l₁' ++ l₂' := by rw [← heq, List.append_assoc]; rfl
    obtain ⟨rfl, rfl⟩ := List.append_inj hsplit (by
      rw [List.length_append, List.length_singleton]
      omega)
    exact hno

/-- **The search has found the lowest gap.** -/
theorem NoFitUpTo.firstFit (h : NoFitUpTo start stop n lo (l₁ ++ b :: l₂) hi l₁.length)
    (hfits : Fits start stop n lo (l₁ ++ [b]) l₂ hi) :
    FirstFit start stop n lo (l₁ ++ [b]) l₂ hi := by
  refine ⟨hfits, fun l₁' l₂' heq hlen => ?_⟩
  rw [List.length_append, List.length_singleton] at hlen
  refine h l₁' l₂' ?_ (by omega)
  rw [← heq, List.append_assoc]
  rfl

/-- **The search has found no gap.** -/
theorem NoFitUpTo.none (h : NoFitUpTo start stop n lo l hi l.length) :
    ¬ HasFit start stop n lo l hi := by
  rintro ⟨l₁, l₂, rfl, hfits⟩
  exact h l₁ l₂ rfl (by rw [List.length_append]; omega) hfits

end

end MierOS.Lib.Arena
