/-
  MierOS.Lib.TableTree
  **MULTI-LEVEL TABLES IN A FLAT MEMORY.**

  A memory maps a frame and an index to an entry; an entry may point to the
  next table (`next`).  `descend` follows a path of indices from a root.  What
  keeps different paths from interfering is a LABELLING: a partial map from
  frames to labels, such that a pointer in a table labelled `l` at index `i`
  leads to a table labelled `child l i`.  A frame has one label, so two paths
  with different labels never meet in a frame, without any statement about
  pairs of paths.

  `n` is the depth of the leaf tables: pointers are followed only out of
  tables of depth below `n`.

  Main results: `descend_owner`, `descend_of_agree`, `lookup_write_leaf`,
  `lookup_link`, `descend_link`, `Labelling.link`.
-/
import Mathlib.Data.List.Basic
import Mathlib.Logic.Basic

namespace MierOS.Lib.TableTree

variable {F I E L O : Type*}

/-- Follow `path` from the table `r`. -/
def descend (next : E → Option F) (mem : F → I → E) : F → List I → Option F
  | r, [] => some r
  | r, i :: path => (next (mem r i)).bind fun c => descend next mem c path

/-- What `obs` sees in slot `i` of the table at the end of `path`. -/
def lookup (next : E → Option F) (obs : E → Option O) (mem : F → I → E)
    (r : F) (path : List I) (i : I) : Option O :=
  (descend next mem r path).bind fun f => obs (mem f i)

/-- A labelling of the tables: pointers of inner tables lead to children. -/
structure Labelling (next : E → Option F) (child : L → I → L) (depth : L → Nat) (n : Nat)
    (mem : F → I → E) (owner : F → Option L) : Prop where
  edge : ∀ f l i c, owner f = some l → depth l < n → next (mem f i) = some c →
    owner c = some (child l i)

/-- One path after another. -/
theorem descend_append (next : E → Option F) (mem : F → I → E) (path path' : List I) :
    ∀ r, descend next mem r (path ++ path')
      = (descend next mem r path).bind fun f => descend next mem f path' := by
  induction path with
  | nil =>
      intro r
      rfl
  | cons i path ih =>
      intro r
      simp only [List.cons_append, descend, ih, Option.bind_assoc]

/-- The last index of a path, apart. -/
theorem descend_concat (next : E → Option F) (mem : F → I → E) (path : List I) (i : I) (r : F) :
    descend next mem r (path ++ [i])
      = (descend next mem r path).bind fun f => next (mem f i) := by
  rw [descend_append]
  simp only [descend, Option.bind_fun_some]

section Paths

variable {next : E → Option F} {child : L → I → L} {depth : L → Nat} {n : Nat}
  {mem mem' : F → I → E} {owner : F → Option L}

/-! ## §1. Paths and labels. -/

/-- **The label at the end of a path** is the path folded onto the root's. -/
theorem descend_owner (hchild : ∀ l i, depth (child l i) = depth l + 1)
    (hlab : Labelling next child depth n mem owner) :
    ∀ (path : List I) (r : F) (l : L) (f : F), owner r = some l →
      depth l + path.length ≤ n → descend next mem r path = some f →
      owner f = some (path.foldl child l) := by
  intro path
  induction path with
  | nil =>
      intro r l f hr _ hd
      simp only [descend, Option.some.injEq] at hd
      subst hd
      exact hr
  | cons i path ih =>
      intro r l f hr hlen hd
      rw [List.length_cons] at hlen
      simp only [descend, Option.bind_eq_some_iff] at hd
      obtain ⟨c, hc, hd⟩ := hd
      have hown := hlab.edge r l i c hr (by omega) hc
      exact ih c (child l i) f hown (by rw [hchild]; omega) hd

theorem depth_foldl (hchild : ∀ l i, depth (child l i) = depth l + 1) :
    ∀ (path : List I) (l : L), depth (path.foldl child l) = depth l + path.length := by
  intro path
  induction path with
  | nil => intro l; rfl
  | cons i path ih =>
      intro l
      rw [List.foldl_cons, ih, hchild, List.length_cons]
      omega

/-- Memories that agree on the inner tables have the same paths. -/
theorem descend_of_agree (hchild : ∀ l i, depth (child l i) = depth l + 1)
    (hlab : Labelling next child depth n mem owner)
    (hagree : ∀ f l i, owner f = some l → depth l < n → mem' f i = mem f i) :
    ∀ (path : List I) (r : F) (l : L), owner r = some l → depth l + path.length ≤ n →
      descend next mem' r path = descend next mem r path := by
  intro path
  induction path with
  | nil => intro r l _ _; rfl
  | cons i path ih =>
      intro r l hr hlen
      rw [List.length_cons] at hlen
      simp only [descend]
      rw [hagree r l i hr (by omega)]
      cases hc : next (mem r i) with
      | none => rfl
      | some c =>
          have hown := hlab.edge r l i c hr (by omega) hc
          exact ih c (child l i) hown (by rw [hchild]; omega)

/-- A path that exists keeps existing when inner tables only gain pointers. -/
theorem descend_mono (hchild : ∀ l i, depth (child l i) = depth l + 1)
    (hlab : Labelling next child depth n mem owner)
    (hkeep : ∀ f l i c, owner f = some l → depth l < n → next (mem f i) = some c →
      next (mem' f i) = some c) :
    ∀ (path : List I) (r : F) (l : L) (f : F), owner r = some l → depth l + path.length ≤ n →
      descend next mem r path = some f → descend next mem' r path = some f := by
  intro path
  induction path with
  | nil => intro r l f _ _ hd; exact hd
  | cons i path ih =>
      intro r l f hr hlen hd
      rw [List.length_cons] at hlen
      simp only [descend, Option.bind_eq_some_iff] at hd ⊢
      obtain ⟨c, hc, hd⟩ := hd
      have hown := hlab.edge r l i c hr (by omega) hc
      exact ⟨c, hkeep r l i c hr (by omega) hc, ih c (child l i) f hown (by rw [hchild]; omega) hd⟩

/-! ## §2. Writing into a leaf table. -/

/-- **A leaf write** is seen at its own slot of its own table, and nowhere
else. -/
theorem lookup_write_leaf [DecidableEq F] [DecidableEq I] (obs : E → Option O)
    (hchild : ∀ l i, depth (child l i) = depth l + 1)
    (hlab : Labelling next child depth n mem owner) {g : F} {lg : L} {j : I} {e : E}
    (hg : owner g = some lg) (hdepth : depth lg = n)
    (hmem : ∀ f i, mem' f i = if f = g ∧ i = j then e else mem f i)
    {r : F} {l : L} {path : List I} (hr : owner r = some l)
    (hlen : depth l + path.length = n) (i : I) :
    lookup next obs mem' r path i
      = if descend next mem r path = some g ∧ i = j then obs e
        else lookup next obs mem r path i := by
  have hagree : ∀ f l i, owner f = some l → depth l < n → mem' f i = mem f i := by
    intro f l i hf hlt
    rw [hmem, if_neg]
    rintro ⟨rfl, _⟩
    rw [hg] at hf
    injection hf with hf
    subst hf
    omega
  unfold lookup
  rw [descend_of_agree hchild hlab hagree path r l hr (by omega)]
  cases hd : descend next mem r path with
  | none => simp
  | some f =>
      simp only [Option.bind_some, Option.some.injEq]
      rw [hmem]
      split <;> rfl

theorem Labelling.write_leaf (hlab : Labelling next child depth n mem owner)
    {g : F} {lg : L} (hg : owner g = some lg) (hdepth : depth lg = n)
    (hmem : ∀ f i, f ≠ g → mem' f i = mem f i) :
    Labelling next child depth n mem' owner := by
  refine ⟨fun f l i c hf hlt hn => ?_⟩
  have hne : f ≠ g := by
    rintro rfl
    rw [hg] at hf
    injection hf with hf
    subst hf
    omega
  rw [hmem f i hne] at hn
  exact hlab.edge f l i c hf hlt hn

/-! ## §3. Hanging a fresh table under an empty slot. -/

/-- `mem'` is `mem` with the fresh table `f` hung under slot `j` of `g`. -/
structure Linked (next : E → Option F) (obs : E → Option O) (mem mem' : F → I → E)
    (g : F) (j : I) (f : F) : Prop where
  ne : f ≠ g
  slotEmpty : next (mem g j) = none
  slotFull : next (mem' g j) = some f
  fresh : ∀ i, next (mem' f i) = none ∧ obs (mem' f i) = none
  rest : ∀ x i, x ≠ f → ¬ (x = g ∧ i = j) → mem' x i = mem x i

/-- **Linking changes no lookup.**  A path that used to break at the slot now
ends in a table in which nothing is seen. -/
theorem lookup_link {obs : E → Option O} (hchild : ∀ l i, depth (child l i) = depth l + 1)
    (hlab : Labelling next child depth n mem owner) {g f : F} {lg : L} {j : I}
    (hg : owner g = some lg) (hdepth : depth lg < n) (hf : owner f = none)
    (hlink : Linked next obs mem mem' g j f) :
    ∀ (path : List I) (r : F) (l : L), owner r = some l → depth l + path.length = n →
      ∀ i, lookup next obs mem' r path i = lookup next obs mem r path i := by
  intro path
  induction path with
  | nil =>
      intro r l hr hlen i
      have hrf : r ≠ f := by rintro rfl; rw [hf] at hr; exact absurd hr (by simp)
      have hrg : r ≠ g := by
        rintro rfl
        rw [hg] at hr
        injection hr with hr
        subst hr
        simp at hlen
        omega
      simp only [lookup, descend, Option.bind_some]
      rw [hlink.rest r i hrf (fun h => hrg h.1)]
  | cons k path ih =>
      intro r l hr hlen i
      rw [List.length_cons] at hlen
      have hrf : r ≠ f := by rintro rfl; rw [hf] at hr; exact absurd hr (by simp)
      by_cases hslot : r = g ∧ k = j
      · -- the slot itself: nothing before, an empty table after
        obtain ⟨rfl, rfl⟩ := hslot
        have hnew : lookup next obs mem' f path i = none := by
          cases path with
          | nil => simp only [lookup, descend, Option.bind_some]; exact (hlink.fresh i).2
          | cons k' path => simp only [lookup, descend, (hlink.fresh k').1]; rfl
        simp only [lookup, descend] at hnew ⊢
        rw [hlink.slotEmpty, hlink.slotFull]
        exact hnew
      · simp only [lookup, descend]
        rw [hlink.rest r k hrf hslot]
        cases hc : next (mem r k) with
        | none => rfl
        | some c =>
            have hown := hlab.edge r l k c hr (by omega) hc
            exact ih c (child l k) hown (by rw [hchild]; omega) i

/-- **A path in the linked memory** leads where it led, or to the fresh table. -/
theorem descend_link {obs : E → Option O} {g f : F} {j : I}
    (hchild : ∀ l i, depth (child l i) = depth l + 1)
    (hlab : Labelling next child depth n mem owner) (hf : owner f = none)
    (hlink : Linked next obs mem mem' g j f) :
    ∀ (path : List I) (r : F) (l : L) (x : F), owner r = some l → depth l + path.length ≤ n →
      descend next mem' r path = some x → descend next mem r path = some x ∨ x = f := by
  intro path
  induction path with
  | nil => intro r l x _ _ hd; exact Or.inl hd
  | cons k path ih =>
      intro r l x hr hlen hd
      rw [List.length_cons] at hlen
      have hrf : r ≠ f := by rintro rfl; rw [hf] at hr; exact absurd hr (by simp)
      by_cases hslot : r = g ∧ k = j
      · -- nothing hangs below the fresh table
        obtain ⟨rfl, rfl⟩ := hslot
        simp only [descend, hlink.slotFull, Option.bind_some] at hd
        cases path with
        | nil =>
            simp only [descend, Option.some.injEq] at hd
            exact Or.inr hd.symm
        | cons k' path =>
            simp only [descend, (hlink.fresh k').1, Option.bind_none] at hd
            exact absurd hd (by simp)
      · simp only [descend, hlink.rest r k hrf hslot] at hd ⊢
        cases hc : next (mem r k) with
        | none =>
            rw [hc] at hd
            exact absurd hd (by simp)
        | some c =>
            rw [hc, Option.bind_some] at hd
            have hown := hlab.edge r l k c hr (by omega) hc
            exact ih c (child l k) x hown (by rw [hchild]; omega) hd

/-- **Linking keeps the labelling**, the fresh table labelled by its place. -/
theorem Labelling.link [DecidableEq F] {obs : E → Option O}
    (hlab : Labelling next child depth n mem owner) {g f : F} {lg : L} {j : I}
    (hg : owner g = some lg) (hf : owner f = none)
    (hlink : Linked next obs mem mem' g j f) :
    Labelling next child depth n mem'
      (fun x => if x = f then some (child lg j) else owner x) := by
  refine ⟨fun x l i c hx hlt hn => ?_⟩
  by_cases hxf : x = f
  · subst hxf
    rw [(hlink.fresh i).1] at hn
    exact absurd hn (by simp)
  · simp only [if_neg hxf] at hx
    by_cases hslot : x = g ∧ i = j
    · obtain ⟨rfl, rfl⟩ := hslot
      rw [hlink.slotFull] at hn
      injection hn with hn
      rw [hg] at hx
      injection hx with hx
      subst hn hx
      simp
    · rw [hlink.rest x i hxf hslot] at hn
      have hown := hlab.edge x l i c hx hlt hn
      have hcf : c ≠ f := by
        rintro rfl
        rw [hf] at hown
        exact absurd hown (by simp)
      simp only [if_neg hcf]
      exact hown

end Paths

end MierOS.Lib.TableTree
