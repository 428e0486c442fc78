/-
  MierOS.Lib.DoubleLinks
  **SEGMENTS OF AN INTRUSIVE DOUBLY LINKED LIST.**

  The links are two functions `prev` and `next` on pointers.  `DSeg prev next p l q`
  says that the nodes of `l` are linked both ways, the first one back to `p` and
  the last one on to `q`.

  Main results: `DSeg.insert`, `DSeg.unlink`, `DSeg.redirect`.
-/
import Mathlib.Data.List.Nodup

namespace MierOS.Lib.DoubleLinks

variable {P : Type*}

/-- The nodes of `l` are linked in order between `p` and `q`. -/
def DSeg (prev next : P → P) : P → List P → P → Prop
  | _, [], _ => True
  | p, x :: l, q => prev x = p ∧ next x = l.headD q ∧ DSeg prev next x l q

namespace DSeg

variable {prev next prev' next' : P → P} {p p' q q' e x : P} {l l₁ l₂ : List P}

theorem headD_append (l₁ l₂ : List P) (q : P) : (l₁ ++ l₂).headD q = l₁.headD (l₂.headD q) := by
  cases l₁ <;> rfl

/-- A segment in two parts. -/
theorem append_iff : DSeg prev next p (l₁ ++ l₂) q
    ↔ DSeg prev next p l₁ (l₂.headD q) ∧ DSeg prev next (l₁.getLastD p) l₂ q := by
  induction l₁ generalizing p with
  | nil => exact ⟨fun h => ⟨trivial, h⟩, fun h => h.2⟩
  | cons x l₁ ih =>
      rw [List.getLastD_cons]
      show prev x = p ∧ next x = (l₁ ++ l₂).headD q ∧ DSeg prev next x (l₁ ++ l₂) q ↔ _
      rw [ih, headD_append]
      constructor
      · rintro ⟨hprev, hnext, hl₁, hl₂⟩
        exact ⟨⟨hprev, hnext, hl₁⟩, hl₂⟩
      · rintro ⟨⟨hprev, hnext, hl₁⟩, hl₂⟩
        exact ⟨hprev, hnext, hl₁, hl₂⟩

/-- The links of a node. -/
theorem links (h : DSeg prev next p (l₁ ++ x :: l₂) q) :
    prev x = l₁.getLastD p ∧ next x = l₂.headD q := by
  have hx := (append_iff.mp h).2
  exact ⟨hx.1, hx.2.1⟩

/-- Only the links of the nodes matter. -/
theorem frame (h : DSeg prev next p l q)
    (hsame : ∀ x ∈ l, prev' x = prev x ∧ next' x = next x) : DSeg prev' next' p l q := by
  induction l generalizing p with
  | nil => trivial
  | cons x l ih =>
      obtain ⟨hprev, hnext⟩ := hsame x List.mem_cons_self
      refine ⟨?_, ?_, ih h.2.2 fun y hy => hsame y (List.mem_cons_of_mem x hy)⟩
      · rw [hprev]
        exact h.1
      · rw [hnext]
        exact h.2.1

section Redirect

variable [DecidableEq P]

/-- **Redirecting the ends**: the first node's link back and the last node's link on. -/
theorem redirect (h : DSeg prev next p l q) (hnodup : l.Nodup)
    (hprev : ∀ x ∈ l, prev' x = if l.head? = some x then p' else prev x)
    (hnext : ∀ x ∈ l, next' x = if l.getLast? = some x then q' else next x) :
    DSeg prev' next' p' l q' := by
  induction l generalizing p p' with
  | nil => trivial
  | cons x l ih =>
      obtain ⟨hx, hnodup'⟩ := List.nodup_cons.mp hnodup
      have hprevx := hprev x List.mem_cons_self
      have hnextx := hnext x List.mem_cons_self
      rw [List.head?_cons, if_pos rfl] at hprevx
      refine ⟨hprevx, ?_, ?_⟩
      · cases l with
        | nil =>
            rw [List.getLast?_singleton, if_pos rfl] at hnextx
            exact hnextx
        | cons y l =>
            -- the last node is another one
            rw [List.getLast?_cons_cons, if_neg] at hnextx
            · rw [hnextx]
              exact h.2.1
            · intro hlast
              exact hx (List.mem_of_getLast? hlast)
      · refine ih h.2.2 hnodup' (fun y hy => ?_) (fun y hy => ?_)
        · -- the link back of the second node is not touched, and is `x`
          have hne : x ≠ y := fun heq => hx (heq ▸ hy)
          rw [hprev y (List.mem_cons_of_mem x hy), List.head?_cons, if_neg (by simpa using hne)]
          cases l with
          | nil => exact absurd hy List.not_mem_nil
          | cons z l =>
              by_cases hzy : (z :: l).head? = some y
              · rw [if_pos hzy]
                obtain rfl : z = y := by simpa using hzy
                exact h.2.2.1
              · rw [if_neg hzy]
        · rw [hnext y (List.mem_cons_of_mem x hy)]
          cases l with
          | nil => exact absurd hy List.not_mem_nil
          | cons z l => rw [List.getLast?_cons_cons]

/-- **Linking in** a node `e` between two parts. -/
theorem insert (h : DSeg prev next p (l₁ ++ l₂) q) (hnodup : (l₁ ++ l₂).Nodup)
    (he : prev' e = l₁.getLastD p ∧ next' e = l₂.headD q)
    (hprev : ∀ x ∈ l₁ ++ l₂, prev' x = if l₂.head? = some x then e else prev x)
    (hnext : ∀ x ∈ l₁ ++ l₂, next' x = if l₁.getLast? = some x then e else next x) :
    DSeg prev' next' p (l₁ ++ e :: l₂) q := by
  obtain ⟨hl₁, hl₂⟩ := append_iff.mp h
  obtain ⟨hnodup₁, hnodup₂, hdisj⟩ := List.nodup_append.mp hnodup
  refine append_iff.mpr ⟨?_, he.1, he.2, ?_⟩
  · refine hl₁.redirect hnodup₁ (fun x hx => ?_) (fun x hx => ?_)
    · rw [hprev x (List.mem_append_left _ hx), if_neg]
      · -- the first node of the left part is linked back to `p`
        cases l₁ with
        | nil => exact absurd hx List.not_mem_nil
        | cons y l₁ =>
            by_cases hy : (y :: l₁).head? = some x
            · rw [if_pos hy]
              obtain rfl : y = x := by simpa using hy
              exact hl₁.1
            · rw [if_neg hy]
      · exact fun hhead => hdisj x hx x (List.mem_of_head? hhead) rfl
    · exact hnext x (List.mem_append_left _ hx)
  · refine hl₂.redirect hnodup₂ (fun x hx => ?_) (fun x hx => ?_)
    · exact hprev x (List.mem_append_right _ hx)
    · rw [hnext x (List.mem_append_right _ hx), if_neg]
      · by_cases hlast : l₂.getLast? = some x
        · rw [if_pos hlast]
          obtain ⟨l, rfl⟩ := List.getLast?_eq_some_iff.mp hlast
          exact hl₂.links.2
        · rw [if_neg hlast]
      · exact fun hlast => hdisj x (List.mem_of_getLast? hlast) x hx rfl

/-- **Taking out** the node `x` between two parts. -/
theorem unlink (h : DSeg prev next p (l₁ ++ x :: l₂) q) (hnodup : (l₁ ++ x :: l₂).Nodup)
    (hprev : ∀ y ∈ l₁ ++ l₂, prev' y = if l₂.head? = some y then prev x else prev y)
    (hnext : ∀ y ∈ l₁ ++ l₂, next' y = if l₁.getLast? = some y then next x else next y) :
    DSeg prev' next' p (l₁ ++ l₂) q := by
  obtain ⟨hprevx, hnextx⟩ := h.links
  obtain ⟨hl₁, -, -, hl₂⟩ := append_iff.mp h
  obtain ⟨hnodup₁, hnodup₂, hdisj⟩ := List.nodup_append.mp hnodup
  have hnodup₂ := (List.nodup_cons.mp hnodup₂).2
  have hdisj' : ∀ y, y ∈ l₁ → y ∈ l₂ → False := fun y hy₁ hy₂ =>
    hdisj y hy₁ y (List.mem_cons_of_mem x hy₂) rfl
  refine append_iff.mpr ⟨?_, ?_⟩
  · refine hl₁.redirect hnodup₁ (fun y hy => ?_) (fun y hy => ?_)
    · rw [hprev y (List.mem_append_left _ hy),
        if_neg fun hhead => hdisj' y hy (List.mem_of_head? hhead)]
      cases l₁ with
      | nil => exact absurd hy List.not_mem_nil
      | cons z l₁ =>
          by_cases hz : (z :: l₁).head? = some y
          · rw [if_pos hz]
            obtain rfl : z = y := by simpa using hz
            exact hl₁.1
          · rw [if_neg hz]
    · rw [hnext y (List.mem_append_left _ hy), hnextx]
  · refine hl₂.redirect hnodup₂ (fun y hy => ?_) (fun y hy => ?_)
    · rw [hprev y (List.mem_append_right _ hy), hprevx]
    · rw [hnext y (List.mem_append_right _ hy),
        if_neg fun hlast => hdisj' y (List.mem_of_getLast? hlast) hy]
      by_cases hlast : l₂.getLast? = some y
      · rw [if_pos hlast]
        obtain ⟨l, rfl⟩ := List.getLast?_eq_some_iff.mp hlast
        exact hl₂.links.2
      · rw [if_neg hlast]

end Redirect

end DSeg

end MierOS.Lib.DoubleLinks
