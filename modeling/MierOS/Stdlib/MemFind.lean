/-
  MierOS.Stdlib.MemFind
  **`memfind`** of `stdlib.c`, and the search for a module's header that rests on it.

  The loop tries `ptrLength - valueLength` places, one fewer than the value can stand at,
  and the difference is one of unsigned numbers: it wraps when the value is the longer
  one.  A comparison that goes on behind the buffer is what the model has no result for.

  Main results: `memcmp_eq_true_iff`, `memfindLoop_spec`, `memfind_iff`.
-/
import Mathlib.Algebra.Group.Nat.Defs
import Mathlib.Data.List.Infix

namespace MierOS.Stdlib.MemFind

/-! ## §1. The code. -/

/-- Bytes in memory, as many as a `size_t` counts. -/
structure Buffer where
  bytes : List UInt8
  fits : bytes.length < 2 ^ 64

/-- The loop of `memcmp(a + offset, b, count)`, where `b` has `i + count` bytes; `none` is a
read outside `a` or `b`. -/
def memcmpLoop (a b : List UInt8) (offset : Nat) : Nat → Nat → Option Bool
  | 0, _ => some true
  | n + 1, i =>
      a[offset + i]?.bind fun x => b[i]?.bind fun y =>
        if x ≠ y then some false else memcmpLoop a b offset n (i + 1)

/-- `memcmp((u8_t*)ptr + offset, value, valueLength)`. -/
def memcmp (ptr value : Buffer) (offset : Nat) : Option Bool :=
  memcmpLoop ptr.bytes value.bytes offset value.bytes.length 0

/-- `ptrLength - valueLength`. -/
def candidates (ptr value : Buffer) : Nat :=
  (ptr.bytes.length + (2 ^ 64 - value.bytes.length)) % 2 ^ 64

/-- The loop of `memfind` with `n` rounds to go: the offset found, or the null pointer. -/
def memfindLoop (ptr value : Buffer) : Nat → Nat → Option (Option Nat)
  | 0, _ => some none
  | n + 1, i =>
      (memcmp ptr value i).bind fun equal =>
        if equal then some (some i) else memfindLoop ptr value n (i + 1)

/-- `memfind(ptr, value, valueLength, ptrLength)`. -/
def memfind (ptr value : Buffer) : Option (Option Nat) :=
  memfindLoop ptr value (candidates ptr value) 0

/-- `MOD_IDENT`. -/
def modIdent : Buffer := ⟨[0x7F, 0x4D, 0x4F, 0x44, 0x48, 0x44, 0x52, 0x31], by decide⟩

/-- `sizeof(module_header)`. -/
def moduleHeaderSize : Nat := 8 + 128 + 8 + 8

/-- The search of `parse_module_header_v1` through the section `.modulehdr`. -/
def findModuleHeader (contents : Buffer) : Option (Option Nat) := memfind contents modIdent

/-! ## §2. Comparisons. -/

/-- The value stands in the buffer at this place. -/
def OccursAt (ptr value : Buffer) (i : Nat) : Prop := value.bytes <+: ptr.bytes.drop i

instance (ptr value : Buffer) (i : Nat) : Decidable (OccursAt ptr value i) :=
  inferInstanceAs (Decidable (_ <+: _))

section Comparison

variable {a b : List UInt8} {offset : Nat} {ptr value : Buffer} {i : Nat}

theorem memcmpLoop_eq_true_iff (n : Nat) : ∀ {i : Nat}, i + n = b.length →
    (memcmpLoop a b offset n i = some true ↔ b.drop i <+: a.drop (offset + i)) := by
  induction n with
  | zero =>
      intro i hi
      have hnil : b.drop i = [] := List.drop_eq_nil_of_le (Nat.le_of_eq hi.symm)
      rw [hnil]
      exact iff_of_true rfl List.nil_prefix
  | succ n ih =>
      intro i hi
      have hb : i < b.length := by omega
      rw [List.drop_eq_getElem_cons hb]
      unfold memcmpLoop
      rw [List.getElem?_eq_getElem hb]
      by_cases ha : offset + i < a.length
      · rw [List.getElem?_eq_getElem ha, Option.bind_some, Option.bind_some,
          List.drop_eq_getElem_cons ha, List.cons_prefix_cons]
        by_cases heq : a[offset + i] = b[i]
        · rw [if_neg (not_not.mpr heq), ih (show i + 1 + n = b.length by omega)]
          exact ⟨fun h => ⟨heq.symm, h⟩, fun h => h.2⟩
        · rw [if_pos heq]
          exact iff_of_false (by simp) fun h => heq h.1.symm
      · -- the buffer has ended
        rw [List.getElem?_eq_none (Nat.le_of_not_lt ha), Option.bind_none,
          List.drop_eq_nil_of_le (Nat.le_of_not_lt ha)]
        exact iff_of_false (by simp) fun h => absurd (List.prefix_nil.mp h) (List.cons_ne_nil _ _)

/-- A comparison inside the buffer has an answer. -/
theorem memcmpLoop_ne_none (n : Nat) : ∀ {i : Nat}, i + n = b.length → offset + i + n ≤ a.length →
    memcmpLoop a b offset n i ≠ none := by
  induction n with
  | zero => exact fun _ _ => Option.some_ne_none true
  | succ n ih =>
      intro i hi ha
      unfold memcmpLoop
      rw [List.getElem?_eq_getElem (show i < b.length by omega),
        List.getElem?_eq_getElem (show offset + i < a.length by omega), Option.bind_some,
        Option.bind_some]
      split
      · exact Option.some_ne_none false
      · exact ih (by omega) (by omega)

/-- **What a comparison answers.** -/
theorem memcmp_eq_true_iff : memcmp ptr value i = some true ↔ OccursAt ptr value i := by
  have hloop : memcmpLoop ptr.bytes value.bytes i value.bytes.length 0 = some true ↔ _ :=
    memcmpLoop_eq_true_iff value.bytes.length (Nat.zero_add _)
  rw [List.drop_zero, Nat.add_zero] at hloop
  exact hloop

theorem memcmp_inside (h : i + value.bytes.length ≤ ptr.bytes.length) :
    memcmp ptr value i = some (decide (OccursAt ptr value i)) := by
  cases hcmp : memcmp ptr value i with
  | none => exact absurd hcmp (memcmpLoop_ne_none _ (Nat.zero_add _) (by omega))
  | some equal =>
      cases equal with
      | true => rw [decide_eq_true (memcmp_eq_true_iff.mp hcmp)]
      | false =>
          have hnot : ¬ OccursAt ptr value i := fun h => by
            rw [memcmp_eq_true_iff.mpr h] at hcmp
            exact absurd hcmp (by simp)
          rw [decide_eq_false hnot]

/-- At the end of the buffer the first read is outside. -/
theorem memcmp_end (hne : value.bytes ≠ []) : memcmp ptr value ptr.bytes.length = none := by
  obtain ⟨n, hn⟩ := Nat.exists_eq_succ_of_ne_zero (mt List.length_eq_zero_iff.mp hne)
  unfold memcmp
  rw [hn]
  unfold memcmpLoop
  rw [Nat.add_zero, List.getElem?_eq_none (Nat.le_refl _), Option.bind_none]

/-- A value stands inside the buffer. -/
theorem OccursAt.le (h : OccursAt ptr value i) (hne : value.bytes ≠ []) :
    i + value.bytes.length ≤ ptr.bytes.length := by
  have hlength := h.length_le
  have hpos := List.length_pos_iff.mpr hne
  rw [List.length_drop] at hlength
  omega

end Comparison

/-! ## §3. The search. -/

section Search

variable {ptr value : Buffer}

/-- **What `memfind` should answer**: the lowest place of the value, and the null pointer
when there is none. -/
def FirstOccurrence (ptr value : Buffer) : Option Nat → Prop
  | none => ∀ i, ¬ OccursAt ptr value i
  | some i => OccursAt ptr value i ∧ ∀ j < i, ¬ OccursAt ptr value j

variable (ptr value) in
/-- **The places the loop tries**, when the value fits behind all of them: it ends at the
lowest one of the value. -/
theorem memfindLoop_spec (n : Nat) : ∀ {i : Nat}, i + n + value.bytes.length ≤ ptr.bytes.length →
    ∃ r, memfindLoop ptr value n i = some r ∧
      match r with
      | none => ∀ j, i ≤ j → j < i + n → ¬ OccursAt ptr value j
      | some k => i ≤ k ∧ k < i + n ∧ OccursAt ptr value k
          ∧ ∀ j, i ≤ j → j < k → ¬ OccursAt ptr value j := by
  induction n with
  | zero => exact fun _ => ⟨none, rfl, fun j hlo hhi => by omega⟩
  | succ n ih =>
      intro i hi
      unfold memfindLoop
      rw [memcmp_inside (show i + value.bytes.length ≤ ptr.bytes.length by omega), Option.bind_some]
      by_cases hocc : OccursAt ptr value i
      · rw [if_pos (decide_eq_true hocc)]
        exact ⟨some i, rfl, Nat.le_refl i, by omega, hocc, fun j hlo hhi => by omega⟩
      · rw [if_neg (by simp [hocc])]
        obtain ⟨r, hloop, hr⟩ := ih (show i + 1 + n + value.bytes.length ≤ ptr.bytes.length by omega)
        -- the place just tried is none of the value
        have hrest : ∀ j, i ≤ j → (i + 1 ≤ j → ¬ OccursAt ptr value j) → ¬ OccursAt ptr value j :=
          fun j hlo h => by
            rcases Nat.eq_or_lt_of_le hlo with rfl | hlt
            · exact hocc
            · exact h hlt
        refine ⟨r, hloop, ?_⟩
        cases r with
        | none => exact fun j hlo hhi => hrest j hlo fun hlt => hr j hlt (by omega)
        | some k =>
            obtain ⟨hlo, hhi, hk, hfirst⟩ := hr
            exact ⟨by omega, by omega, hk, fun j hj hjk => hrest j hj fun hlt => hfirst j hlt hjk⟩

/-- **A value longer than the buffer** makes the loop go on to the end of it, at the latest,
and read there. -/
theorem memfindLoop_outside (hne : value.bytes ≠ [])
    (hlong : ptr.bytes.length < value.bytes.length) (d : Nat) : ∀ {n i : Nat},
    i + d = ptr.bytes.length → d < n → memfindLoop ptr value n i = none := by
  induction d with
  | zero =>
      intro n i hi hn
      obtain ⟨n, rfl⟩ := Nat.exists_eq_succ_of_ne_zero (Nat.ne_of_gt hn)
      obtain rfl : i = ptr.bytes.length := hi
      unfold memfindLoop
      rw [memcmp_end hne, Option.bind_none]
  | succ d ih =>
      intro n i hi hn
      obtain ⟨n, rfl⟩ := Nat.exists_eq_succ_of_ne_zero (Nat.ne_of_gt (Nat.zero_lt_of_lt hn))
      unfold memfindLoop
      cases hcmp : memcmp ptr value i with
      | none => rfl
      | some equal =>
          cases equal with
          | true =>
              have hle := (memcmp_eq_true_iff.mp hcmp).le hne
              omega
          | false => exact ih (by omega) (by omega)

theorem candidates_of_le (h : value.bytes.length ≤ ptr.bytes.length) :
    candidates ptr value = ptr.bytes.length - value.bytes.length := by
  have hp := ptr.fits
  unfold candidates
  omega

theorem candidates_of_lt (h : ptr.bytes.length < value.bytes.length) :
    ptr.bytes.length < candidates ptr value := by
  have hv := value.fits
  unfold candidates
  omega

/-- **WHEN `memfind` IS RIGHT.**  For every buffer and every value that is not empty, it
reads inside the buffer only and answers with the first occurrence exactly when the value is
no longer than the buffer and does not stand at its very end alone. -/
theorem memfind_iff (ptr value : Buffer) (hne : value.bytes ≠ []) :
    (∃ r, memfind ptr value = some r ∧ FirstOccurrence ptr value r)
      ↔ value.bytes.length ≤ ptr.bytes.length
        ∧ (OccursAt ptr value (ptr.bytes.length - value.bytes.length) →
            ∃ j < ptr.bytes.length - value.bytes.length, OccursAt ptr value j) := by
  unfold memfind
  by_cases hle : value.bytes.length ≤ ptr.bytes.length
  · rw [candidates_of_le hle]
    obtain ⟨r, hloop, hr⟩ := memfindLoop_spec ptr value
      (ptr.bytes.length - value.bytes.length) (i := 0) (by omega)
    rw [Nat.zero_add] at hr
    rw [hloop]
    constructor
    · rintro ⟨r', hr', hfirst⟩
      obtain rfl : r = r' := Option.some.inj hr'
      refine ⟨hle, fun hlast => ?_⟩
      cases r with
      | none => exact absurd hlast (hfirst _)
      | some k => exact ⟨k, hr.2.1, hr.2.2.1⟩
    · rintro ⟨-, hlast⟩
      refine ⟨r, rfl, ?_⟩
      cases r with
      | none =>
          intro i hocc
          have hi := hocc.le hne
          rcases Nat.lt_or_eq_of_le (show i ≤ ptr.bytes.length - value.bytes.length by omega) with
            hlt | rfl
          · exact hr i (Nat.zero_le i) hlt hocc
          · -- the place that is not tried
            obtain ⟨j, hj, hocc'⟩ := hlast hocc
            exact hr j (Nat.zero_le j) hj hocc'
      | some k => exact ⟨hr.2.2.1, fun j hj => hr.2.2.2 j (Nat.zero_le j) hj⟩
  · have hlong := Nat.lt_of_not_le hle
    rw [memfindLoop_outside hne hlong ptr.bytes.length (Nat.zero_add _) (candidates_of_lt hlong)]
    exact iff_of_false (fun ⟨_, h, _⟩ => absurd h (by simp)) fun h => hle h.1

/-- A value of two bytes at the start of three. -/
theorem memfind_at_start :
    ∃ r, memfind ⟨[1, 2, 3], by decide⟩ ⟨[1, 2], by decide⟩ = some r
      ∧ FirstOccurrence ⟨[1, 2, 3], by decide⟩ ⟨[1, 2], by decide⟩ r :=
  (memfind_iff ⟨[1, 2, 3], by decide⟩ ⟨[1, 2], by decide⟩ (by simp)).mpr
    ⟨by decide, fun _ => ⟨0, by decide, by decide⟩⟩

/-- **A value in itself** is not found. -/
theorem memfind_misses_end :
    ¬ ∀ ptr value : Buffer, value.bytes ≠ [] →
      ∃ r, memfind ptr value = some r ∧ FirstOccurrence ptr value r := by
  intro hclaim
  obtain ⟨r, hr, hfirst⟩ := hclaim ⟨[7], by decide⟩ ⟨[7], by decide⟩ (by simp)
  have hnull : memfind ⟨[7], by decide⟩ ⟨[7], by decide⟩ = some none := by decide +kernel
  obtain rfl : none = r := Option.some.inj (hnull.symm.trans hr)
  exact hfirst 0 (by decide)

/-- **A module's header** is found where it stands first, in every section with room for one
header from its identification on. -/
theorem findModuleHeader_first {contents : Buffer} {i : Nat} (hocc : OccursAt contents modIdent i)
    (hroom : i + moduleHeaderSize ≤ contents.bytes.length) :
    ∃ k, findModuleHeader contents = some (some k) ∧ FirstOccurrence contents modIdent (some k) := by
  have hlength : modIdent.bytes.length = 8 := rfl
  unfold moduleHeaderSize at hroom
  -- the identification stands somewhere before the last place it could stand at
  obtain ⟨r, hfind, hr⟩ := memfindLoop_spec contents modIdent
    (contents.bytes.length - modIdent.bytes.length) (i := 0) (by omega)
  rw [Nat.zero_add] at hr
  unfold findModuleHeader memfind
  rw [candidates_of_le (by omega), hfind]
  cases r with
  | none => exact absurd hocc (hr i (Nat.zero_le i) (by omega))
  | some k => exact ⟨k, rfl, hr.2.2.1, fun j hj => hr.2.2.2 j (Nat.zero_le j) hj⟩

theorem findModuleHeader_first_alone :
    ∃ contents k, findModuleHeader contents = some (some k) := by
  have hfits : (modIdent.bytes ++ List.replicate 144 0).length < 2 ^ 64 := by simp [modIdent]
  have hocc : OccursAt ⟨_, hfits⟩ modIdent 0 := List.prefix_append _ _
  obtain ⟨k, hk, -⟩ := findModuleHeader_first hocc (by simp [modIdent, moduleHeaderSize])
  exact ⟨_, k, hk⟩

end Search

end MierOS.Stdlib.MemFind
