/-
  MierOS.Lib.PrefixCode
  **PREFIX CODES**: code words none of which begins another one.

  A stream of such words can be read from its front, a word at a time, so it can be taken
  apart in one way only.  An encoder whose words can be read back one by one can therefore be
  read back from the stream of all of them.

  Main results: `PrefixCode.uniquelyDecodable`, `map_eq_of_flatMap_eq`.
-/
import Mathlib.Data.List.Infix
import Mathlib.InformationTheory.Coding.UniquelyDecodable

namespace MierOS.Lib

open InformationTheory

variable {α A B : Type*} {S : Set (List α)}

/-- No word begins another one, and none is empty. -/
structure PrefixCode (S : Set (List α)) : Prop where
  nonempty : [] ∉ S
  prefix_free : ∀ u ∈ S, ∀ v ∈ S, u <+: v → u = v

/-- The first word of a stream, and what is behind it. -/
theorem PrefixCode.cancel (h : PrefixCode S) {u v r r' : List α} (hu : u ∈ S) (hv : v ∈ S)
    (heq : u ++ r = v ++ r') : u = v ∧ r = r' := by
  have hprefix : u <+: v ∨ v <+: u :=
    List.prefix_or_prefix_of_prefix (List.prefix_append u r) (heq ▸ List.prefix_append v r')
  have huv : u = v := by
    rcases hprefix with huv | hvu
    · exact h.prefix_free u hu v hv huv
    · exact (h.prefix_free v hv u hu hvu).symm
  subst huv
  exact ⟨rfl, List.append_cancel_left heq⟩

/-- **A stream of words can be taken apart in one way.** -/
theorem PrefixCode.uniquelyDecodable (h : PrefixCode S) : UniquelyDecodable S := by
  intro words words' hwords hwords' heq
  -- a word in front of an empty stream would be empty
  have hempty : ∀ l : List (List α), (∀ w ∈ l, w ∈ S) → l.flatten = [] → l = [] := by
    intro l hl hflat
    cases l with
    | nil => rfl
    | cons w l =>
        have hw : w = [] := (List.append_eq_nil_iff.mp hflat).1
        exact absurd (hw ▸ hl w List.mem_cons_self) h.nonempty
  induction words generalizing words' with
  | nil => exact (hempty words' hwords' heq.symm).symm
  | cons u words ih =>
      cases words' with
      | nil => exact hempty _ hwords heq
      | cons v words' =>
          obtain ⟨rfl, hrest⟩ := h.cancel (hwords u List.mem_cons_self)
            (hwords' v List.mem_cons_self) heq
          rw [ih words' (fun w hw => hwords w (List.mem_cons_of_mem u hw))
            (fun w hw => hwords' w (List.mem_cons_of_mem u hw)) hrest]

/-- **Reading a stream back**: what can be read off each word of an encoder can be read off
the stream of them. -/
theorem map_eq_of_flatMap_eq (h : UniquelyDecodable S) {encode : A → List α} {read : List α → B}
    {label : A → B} {xs ys : List A} (hxs : ∀ a ∈ xs, encode a ∈ S ∧ read (encode a) = label a)
    (hys : ∀ a ∈ ys, encode a ∈ S ∧ read (encode a) = label a)
    (heq : xs.flatMap encode = ys.flatMap encode) : xs.map label = ys.map label := by
  have hwords : xs.map encode = ys.map encode := by
    refine h _ _ (fun w hw => ?_) (fun w hw => ?_) ?_
    · obtain ⟨a, ha, rfl⟩ := List.mem_map.mp hw
      exact (hxs a ha).1
    · obtain ⟨a, ha, rfl⟩ := List.mem_map.mp hw
      exact (hys a ha).1
    · rw [← List.flatMap_def, ← List.flatMap_def]
      exact heq
  calc xs.map label = (xs.map encode).map read := by
        rw [List.map_map]
        exact List.map_congr_left fun a ha => (hxs a ha).2.symm
    _ = (ys.map encode).map read := by rw [hwords]
    _ = ys.map label := by
        rw [List.map_map]
        exact List.map_congr_left fun a ha => (hys a ha).2

end MierOS.Lib
