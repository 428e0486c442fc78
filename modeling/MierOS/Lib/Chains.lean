/-
  MierOS.Lib.Chains
  **A FAMILY OF CHAINS** over one set of nodes, as the buckets of a hash table are.

  `Forest next null head chain` says that chain `i` starts at `head i`, visits the
  nodes of the list `chain i` and ends in null, and that no node is visited twice,
  in one chain or in two.

  Main results: `Forest.replace`, `Forest.push`, `pushLast`, `Forest.pop`,
  `unlink`, `Forest.nodup_flatMap`.
-/
import MierOS.Lib.Links
import Mathlib.Data.List.Nodup
import Mathlib.Data.Sum.Basic

namespace MierOS.Lib.Chains

open Lib.Links
open Function (update update_eq_self update_of_ne update_self)

variable {P ι κ : Type*}

/-- **Chains that share no node.** -/
structure Forest (next : P → P) (null : P) (head : ι → P) (chain : ι → List P) : Prop where
  seg : ∀ i, Seg next (head i) (chain i) null
  live : ∀ i, null ∉ chain i
  nodup : ∀ i, (chain i).Nodup
  apart : ∀ i j a, a ∈ chain i → a ∈ chain j → i = j

namespace Forest

variable {next next' : P → P} {null a b last p : P} {head : ι → P} {chain : ι → List P} {i : ι}
  {l l' : List P}

/-- No chain at all. -/
theorem empty (h : ∀ i, head i = null) : Forest next null head fun _ => [] where
  seg := h
  live _ := List.not_mem_nil
  nodup _ := List.nodup_nil
  apart _ _ _ ha _ := absurd ha List.not_mem_nil

/-- Some of the chains. -/
theorem comap (h : Forest next null head chain) {f : κ → ι} (hf : Function.Injective f) :
    Forest next null (head ∘ f) (chain ∘ f) where
  seg k := h.seg (f k)
  live k := h.live (f k)
  nodup k := h.nodup (f k)
  apart k k' a ha ha' := hf (h.apart (f k) (f k') a ha ha')

/-- Empty chains besides. -/
theorem extend (h : Forest next null head chain) {head' : κ → P} (hnull : ∀ k, head' k = null) :
    Forest next null (Sum.elim head head') (Sum.elim chain fun _ => []) := by
  constructor
  case seg =>
    rintro (i | k)
    · exact h.seg i
    · exact hnull k
  case live =>
    rintro (i | k)
    · exact h.live i
    · exact List.not_mem_nil
  case nodup =>
    rintro (i | k)
    · exact h.nodup i
    · exact List.nodup_nil
  case apart =>
    rintro (i | k) (j | k') a ha ha'
    · exact congrArg Sum.inl (h.apart i j a ha ha')
    · exact absurd ha' List.not_mem_nil
    · exact absurd ha List.not_mem_nil
    · exact absurd ha List.not_mem_nil

theorem chain_eq_nil (h : Forest next null head chain) (hi : head i = null) : chain i = [] := by
  have hseg := h.seg i
  have hlive := h.live i
  cases hc : chain i with
  | nil => rfl
  | cons x l =>
      rw [hc, hi] at hseg
      rw [hc] at hlive
      exact absurd (hseg.start ▸ List.mem_cons_self) hlive

theorem chain_eq_cons (h : Forest next null head chain) (hi : head i ≠ null) :
    ∃ l, chain i = head i :: l := by
  have hseg := h.seg i
  cases hc : chain i with
  | nil =>
      rw [hc] at hseg
      exact absurd hseg hi
  | cons x l =>
      rw [hc] at hseg
      exact ⟨l, by rw [hseg.start]⟩

/-- The node behind a node of a chain is in the chain, or null. -/
theorem next_mem (h : Forest next null head chain) (ha : a ∈ chain i) :
    next a = null ∨ next a ∈ chain i := by
  obtain ⟨l, l', hc⟩ := List.append_of_mem ha
  have hseg := h.seg i
  rw [hc] at hseg ⊢
  obtain ⟨m, _, hrest⟩ := hseg.split
  cases l' with
  | nil => exact Or.inl hrest.2
  | cons x l' =>
      rw [hrest.2.start]
      exact Or.inr (by simp)

/-- A node of another chain is another node. -/
theorem ne_of_mem (h : Forest next null head chain) (hb : b ∈ chain i) {j : ι} (hj : j ≠ i)
    (ha : a ∈ chain j) : a ≠ b := by
  intro heq
  rw [heq] at ha
  exact hj (h.apart j i b ha hb)

/-- **Chains one after another** repeat nothing. -/
theorem nodup_flatMap (h : Forest next null head chain) {is : List ι} (his : is.Nodup) :
    (is.flatMap chain).Nodup := by
  refine List.nodup_flatMap.mpr ⟨fun i _ => h.nodup i, ?_⟩
  refine List.Pairwise.imp_of_mem ?_ his
  intro i j _ _ hij a hai haj
  exact hij (h.apart i j a hai haj)

section Writes

variable [DecidableEq P] [DecidableEq ι]

omit [DecidableEq ι] in
/-- The link of a node in no chain. -/
theorem free (h : Forest next null head chain) (ha : ∀ j, a ∉ chain j) (v : P) :
    Forest (update next a v) null head chain where
  seg i := (h.seg i).update (ha i)
  live := h.live
  nodup := h.nodup
  apart := h.apart

omit [DecidableEq P] in
/-- **One chain becomes another one**, and the links of the others stay. -/
theorem replace (h : Forest next null head chain)
    (hframe : ∀ j, j ≠ i → ∀ x ∈ chain j, next' x = next x) (hseg : Seg next' p l null)
    (hlive : null ∉ l) (hnodup : l.Nodup) (hapart : ∀ j, j ≠ i → ∀ x ∈ l, x ∉ chain j) :
    Forest next' null (update head i p) (update chain i l) := by
  constructor
  case seg =>
    intro j
    by_cases hj : j = i
    · subst hj
      rw [update_self, update_self]
      exact hseg
    · rw [update_of_ne hj, update_of_ne hj]
      exact (h.seg j).frame (hframe j hj)
  case live =>
    intro j
    by_cases hj : j = i
    · subst hj
      rw [update_self]
      exact hlive
    · rw [update_of_ne hj]
      exact h.live j
  case nodup =>
    intro j
    by_cases hj : j = i
    · subst hj
      rw [update_self]
      exact hnodup
    · rw [update_of_ne hj]
      exact h.nodup j
  case apart =>
    intro j k x hxj hxk
    by_cases hj : j = i
    · by_cases hk : k = i
      · exact hj.trans hk.symm
      · subst hj
        rw [update_self] at hxj
        rw [update_of_ne hk] at hxk
        exact absurd hxk (hapart k hk x hxj)
    · rw [update_of_ne hj] at hxj
      by_cases hk : k = i
      · subst hk
        rw [update_self] at hxk
        exact absurd hxj (hapart j hj x hxk)
      · rw [update_of_ne hk] at hxk
        exact h.apart j k x hxj hxk

/-- **A free node starts an empty chain.**  A null pointer leaves it empty. -/
theorem push (h : Forest next null head chain) (hi : head i = null) (hfree : ∀ j, a ∉ chain j)
    (ha : next a = null) : ∃ chain', Forest next null (update head i a) chain' := by
  by_cases hnull : a = null
  · rw [hnull, ← hi, update_eq_self]
    exact ⟨chain, hi ▸ h⟩
  · refine ⟨_, h.replace (l := [a]) (fun _ _ _ _ => rfl) ⟨rfl, ha⟩ ?_ (List.nodup_singleton a) ?_⟩
    · rw [List.mem_singleton]
      exact fun heq => hnull heq.symm
    · intro j _ x hx
      rw [List.mem_singleton.mp hx]
      exact hfree j

/-- **A free node goes behind the last one.**  A null pointer changes nothing. -/
theorem pushLast (h : Forest next null head chain) (hi : chain i = l ++ [last])
    (hfree : ∀ j, a ∉ chain j) (ha : next a = null) :
    ∃ chain', Forest (update next last a) null head chain' := by
  have hseg := h.seg i
  have hnodup := h.nodup i
  rw [hi] at hseg hnodup
  have hlast : last ∈ chain i := by rw [hi]; simp
  have hnotin : last ∉ l := fun hmem => List.disjoint_of_nodup_append hnodup hmem (by simp)
  by_cases hnull : a = null
  · rw [hnull, ← hseg.next_last, update_eq_self]
    exact ⟨chain, hseg.next_last.symm ▸ h⟩
  · have hne : a ≠ last := fun heq => hfree i (heq ▸ hlast)
    have hnew : Seg (update next last a) (head i) ((l ++ [last]) ++ [a]) null := by
      refine (hseg.updateLast hnotin).append ⟨rfl, ?_⟩
      show update next last a a = null
      rw [update_of_ne hne]
      exact ha
    have hfree' := hfree i
    rw [hi] at hfree'
    have h' := h.replace (i := i) (l := (l ++ [last]) ++ [a])
      (fun j hj x hx => update_of_ne (h.ne_of_mem hlast hj hx) a next) hnew ?_ ?_ ?_
    · rw [update_eq_self] at h'
      exact ⟨_, h'⟩
    · rw [← hi, List.mem_append, List.mem_singleton]
      rintro (hmem | heq)
      · exact h.live i hmem
      · exact hnull heq.symm
    · exact List.nodup_append.mpr ⟨hnodup, List.nodup_singleton a, fun x hx y hy heq =>
        hfree' (List.mem_singleton.mp hy ▸ heq ▸ hx)⟩
    · intro j hj x hx
      rw [← hi, List.mem_append, List.mem_singleton] at hx
      rcases hx with hx | rfl
      · exact fun hxj => hj (h.apart j i x hxj hx)
      · exact hfree j

omit [DecidableEq P] in
/-- **The first node goes out.** -/
theorem pop (h : Forest next null head chain) (hi : chain i = a :: l) :
    Forest next null (update head i (next a)) (update chain i l) := by
  have hseg := h.seg i
  have hlive := h.live i
  have hnodup := h.nodup i
  rw [hi] at hseg hlive hnodup
  have hmem : ∀ x ∈ l, x ∈ chain i := fun x hx => hi ▸ List.mem_cons_of_mem a hx
  refine h.replace (fun _ _ _ _ => rfl) hseg.2 (fun hn => hlive (List.mem_cons_of_mem a hn))
    (List.nodup_cons.mp hnodup).2 ?_
  intro j hj x hx hxj
  exact hj (h.apart j i x hxj (hmem x hx))

omit [DecidableEq P] in
/-- The node that went out is in no chain. -/
theorem pop_free (h : Forest next null head chain) (hi : chain i = a :: l) (j : ι) :
    a ∉ update chain i l j := by
  have hnodup := h.nodup i
  rw [hi] at hnodup
  by_cases hj : j = i
  · subst hj
    rw [update_self]
    exact (List.nodup_cons.mp hnodup).1
  · rw [update_of_ne hj]
    exact fun hmem => hj (h.apart j i a hmem (hi ▸ List.mem_cons_self))

/-- **The node behind `b` goes out.** -/
theorem unlink (h : Forest next null head chain) (hi : chain i = l ++ b :: a :: l') :
    Forest (update next b (next a)) null head
      (update chain i (l ++ b :: l')) := by
  have hseg := h.seg i
  have hlive := h.live i
  have hnodup := h.nodup i
  rw [hi] at hseg hlive hnodup
  have hb : b ∈ chain i := by rw [hi]; simp
  -- the new chain is the old one with `a` left out
  have hsub : List.Sublist (l ++ b :: l') (l ++ b :: a :: l') :=
    (((List.Sublist.refl l').cons a).cons_cons b).append_left l
  have h' := h.replace (i := i) (fun j hj x hx =>
      update_of_ne (h.ne_of_mem hb hj hx) (next a) next) (hseg.unlink hnodup)
    (fun hn => hlive (hsub.subset hn)) (hnodup.sublist hsub)
    (fun j hj x hx hxj => hj (h.apart j i x hxj (hi ▸ hsub.subset hx)))
  rw [update_eq_self] at h'
  exact h'

end Writes

end Forest

end MierOS.Lib.Chains
