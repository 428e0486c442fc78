/-
  MierOS.Lib.Cut
  **A STREAM CUT INTO PIECES**: at every separator, which is dropped, and
  optionally whenever a piece reaches a limit.

  Main results: `foldl_cutSep`, `exists_join`, `cut_append`, `cut_short`.
-/
import Mathlib.Data.List.Basic

namespace MierOS.Lib.Cut

variable {α : Type*} {sep : α} {limit : Nat}

/-- The pieces that are finished and the one that is not. -/
abbrev Pieces (α : Type*) := List (List α) × List α

/-- Pieces with the separators between them. -/
def join (sep : α) : List (List α) → List α → List α
  | [], rest => rest
  | d :: ds, rest => d ++ sep :: join sep ds rest

/-- The last separator stands in front of the rest. -/
theorem join_eq_append (sep : α) {lines : List (List α)} (h : lines ≠ []) (rest : List α) :
    ∃ front, join sep lines rest = front ++ sep :: rest := by
  induction lines with
  | nil => exact absurd rfl h
  | cons d lines ih =>
      by_cases hnil : lines = []
      · subst hnil
        exact ⟨d, rfl⟩
      · obtain ⟨front, hfront⟩ := ih hnil
        refine ⟨d ++ sep :: front, ?_⟩
        show d ++ sep :: join sep lines rest = _
        rw [hfront, List.append_assoc, List.cons_append]

theorem length_rest_le_join (sep : α) (lines : List (List α)) (rest : List α) :
    rest.length ≤ (join sep lines rest).length := by
  by_cases hnil : lines = []
  · rw [hnil]
    exact Nat.le_refl _
  · obtain ⟨front, hfront⟩ := join_eq_append sep hnil rest
    rw [hfront, List.length_append, List.length_cons]
    omega

theorem length_lines_le_join (sep : α) (lines : List (List α)) (rest : List α) :
    lines.length ≤ (join sep lines rest).length := by
  induction lines with
  | nil => exact Nat.zero_le _
  | cons d lines ih =>
      show (d :: lines).length ≤ (d ++ sep :: join sep lines rest).length
      rw [List.length_cons, List.length_append, List.length_cons]
      omega

variable [DecidableEq α]

/-- The next element, when only separators cut. -/
def cutSep (sep : α) (st : Pieces α) (x : α) : Pieces α :=
  if x = sep then (st.1 ++ [st.2], []) else (st.1, st.2 ++ [x])

/-- A piece that has reached the limit is finished. -/
def cutLimit (limit : Nat) (st : Pieces α) : Pieces α :=
  if st.2.length = limit then (st.1 ++ [st.2], []) else st

/-- The next element. -/
def cutStep (sep : α) (limit : Nat) (st : Pieces α) (x : α) : Pieces α :=
  cutLimit limit (cutSep sep st x)

/-- **The cut of a stream.** -/
def cut (sep : α) (limit : Nat) (st : Pieces α) (xs : List α) : Pieces α :=
  xs.foldl (cutStep sep limit) st

/-! ## §1. Separators. -/

theorem cutSep_of_ne {st : Pieces α} {x : α} (h : x ≠ sep) :
    cutSep sep st x = (st.1, st.2 ++ [x]) := if_neg h

theorem cutSep_self {st : Pieces α} : cutSep sep st sep = (st.1 ++ [st.2], []) := if_pos rfl

theorem foldl_cutSep_of_notMem (ds : List (List α)) (p : List α) {xs : List α} (h : sep ∉ xs) :
    xs.foldl (cutSep sep) (ds, p) = (ds, p ++ xs) := by
  induction xs generalizing p with
  | nil => rw [List.foldl_nil, List.append_nil]
  | cons x xs ih =>
      have hx : x ≠ sep := fun hx => h (hx ▸ List.mem_cons_self)
      rw [List.foldl_cons, cutSep_of_ne hx, ih (p ++ [x]) (fun hmem => h (List.mem_cons_of_mem x hmem)),
        List.append_assoc]
      rfl

/-- **Cutting undoes `join`**; what was pending goes in front. -/
theorem foldl_cutSep (ds : List (List α)) {lines : List (List α)} {rest : List α}
    (hlines : ∀ d ∈ lines, sep ∉ d) (hrest : sep ∉ rest) :
    (join sep lines rest).foldl (cutSep sep) (ds, []) = (ds ++ lines, rest) := by
  induction lines generalizing ds with
  | nil =>
      rw [List.append_nil]
      exact foldl_cutSep_of_notMem ds [] hrest
  | cons d lines ih =>
      show (d ++ sep :: join sep lines rest).foldl (cutSep sep) (ds, []) = _
      rw [List.foldl_append, foldl_cutSep_of_notMem ds [] (hlines d List.mem_cons_self), List.foldl_cons,
        cutSep_self, List.nil_append, ih (ds ++ [d]) (fun e he => hlines e (List.mem_cons_of_mem d he)),
        List.append_assoc]
      rfl

/-- Everything is pieces without separators, joined. -/
theorem exists_join (sep : α) (xs : List α) : ∃ lines rest,
    xs = join sep lines rest ∧ (∀ d ∈ lines, sep ∉ d) ∧ sep ∉ rest := by
  induction xs with
  | nil => exact ⟨[], [], rfl, fun d hd => absurd hd List.not_mem_nil, List.not_mem_nil⟩
  | cons x xs ih =>
      obtain ⟨lines, rest, hxs, hlines, hrest⟩ := ih
      by_cases hx : x = sep
      · refine ⟨[] :: lines, rest, by rw [hx, hxs]; rfl, ?_, hrest⟩
        intro d hd
        rcases List.mem_cons.mp hd with rfl | hd
        · exact List.not_mem_nil
        · exact hlines d hd
      · cases lines with
        | nil =>
            refine ⟨[], x :: rest, by rw [hxs]; rfl, hlines, ?_⟩
            intro hmem
            rcases List.mem_cons.mp hmem with hsep | hmem
            · exact hx hsep.symm
            · exact hrest hmem
        | cons d lines =>
            refine ⟨(x :: d) :: lines, rest, by rw [hxs]; rfl, ?_, hrest⟩
            intro e he
            rcases List.mem_cons.mp he with rfl | he
            · intro hmem
              rcases List.mem_cons.mp hmem with hsep | hmem
              · exact hx hsep.symm
              · exact hlines d List.mem_cons_self hmem
            · exact hlines e (List.mem_cons_of_mem d he)

/-! ## §2. The limit. -/

theorem cut_nil (st : Pieces α) : cut sep limit st [] = st := rfl

theorem cut_cons (st : Pieces α) (x : α) (xs : List α) :
    cut sep limit st (x :: xs) = cut sep limit (cutStep sep limit st x) xs := rfl

theorem cut_append (st : Pieces α) (xs ys : List α) :
    cut sep limit st (xs ++ ys) = cut sep limit (cut sep limit st xs) ys := List.foldl_append

/-- The finished pieces are only added to. -/
theorem cut_log (ds : List (List α)) (p xs : List α) :
    cut sep limit (ds, p) xs
      = (ds ++ (cut sep limit ([], p) xs).1, (cut sep limit ([], p) xs).2) := by
  have hstep : ∀ (ds : List (List α)) (p : List α) (x : α), cutStep sep limit (ds, p) x
      = (ds ++ (cutStep sep limit ([], p) x).1, (cutStep sep limit ([], p) x).2) := by
    intro ds p x
    unfold cutStep cutSep
    by_cases hx : x = sep
    · rw [if_pos hx, if_pos hx]
      unfold cutLimit
      dsimp only
      split <;> simp
    · rw [if_neg hx, if_neg hx]
      unfold cutLimit
      dsimp only
      split <;> simp
  induction xs generalizing ds p with
  | nil =>
      rw [cut_nil, cut_nil, List.append_nil]
  | cons x xs ih =>
      rw [cut_cons, cut_cons, hstep ds p x]
      rw [ih, ih (cutStep sep limit ([], p) x).1, List.append_assoc]

/-- **No more than `limit` elements**: the limit is met at the end or not at all. -/
theorem cut_short {st : Pieces α} {xs : List α} (hst : st.2.length < limit)
    (hxs : st.2.length + xs.length ≤ limit) :
    cut sep limit st xs = cutLimit limit (xs.foldl (cutSep sep) st) := by
  induction xs generalizing st with
  | nil =>
      show st = cutLimit limit st
      unfold cutLimit
      rw [if_neg (Nat.ne_of_lt hst)]
  | cons x xs ih =>
      rw [cut_cons, List.foldl_cons]
      rw [List.length_cons] at hxs
      have hlength : (cutSep sep st x).2.length ≤ st.2.length + 1 := by
        unfold cutSep
        split
        · exact Nat.zero_le _
        · exact Nat.le_of_eq List.length_append
      unfold cutStep
      by_cases hfull : (cutSep sep st x).2.length = limit
      · -- then nothing is to come
        have hnil : xs = [] := List.length_eq_zero_iff.mp (by omega)
        rw [hnil]
        rfl
      · have hsame : cutLimit limit (cutSep sep st x) = cutSep sep st x := if_neg hfull
        rw [hsame]
        exact ih (by omega) (by omega)

/-- What is pending is shorter than the limit, and has no separator. -/
theorem cut_pending {st : Pieces α} {xs : List α} (hlimit : 0 < limit) (hst : st.2.length < limit)
    (hsep : sep ∉ st.2) :
    (cut sep limit st xs).2.length < limit ∧ sep ∉ (cut sep limit st xs).2 := by
  induction xs generalizing st with
  | nil => exact ⟨hst, hsep⟩
  | cons x xs ih =>
      rw [cut_cons]
      have hlength : (cutSep sep st x).2.length ≤ limit ∧ sep ∉ (cutSep sep st x).2 := by
        unfold cutSep
        split
        · exact ⟨Nat.zero_le _, List.not_mem_nil⟩
        · rename_i hx
          refine ⟨by rw [List.length_append, List.length_singleton]; omega, fun hmem => ?_⟩
          rcases List.mem_append.mp hmem with hmem | hmem
          · exact hsep hmem
          · exact hx (List.mem_singleton.mp hmem).symm
      unfold cutStep cutLimit
      split
      · exact ih hlimit List.not_mem_nil
      · exact ih (by omega) hlength.2

/-- What is pending came in. -/
theorem cut_subset {st : Pieces α} {xs : List α} {x : α} (h : x ∈ (cut sep limit st xs).2) :
    x ∈ st.2 ∨ x ∈ xs := by
  induction xs generalizing st with
  | nil => exact Or.inl h
  | cons y xs ih =>
      rw [cut_cons] at h
      rcases ih h with hmem | hmem
      · have hin : x ∈ (cutSep sep st y).2 := by
          unfold cutStep cutLimit at hmem
          split at hmem
          · exact absurd hmem List.not_mem_nil
          · exact hmem
        unfold cutSep at hin
        split at hin
        · exact absurd hin List.not_mem_nil
        · rcases List.mem_append.mp hin with hin | hin
          · exact Or.inl hin
          · exact Or.inr (List.mem_cons.mpr (Or.inl (List.mem_singleton.mp hin)))
      · exact Or.inr (List.mem_cons_of_mem y hmem)

end MierOS.Lib.Cut
