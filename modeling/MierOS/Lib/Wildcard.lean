/-
  MierOS.Lib.Wildcard
  **GREEDY WILDCARD MATCHING**, with one backtrack point.

  A pattern denotes a language: `star` any string, `any` one character, every
  other character itself, one after another.  The matcher walks pattern and text
  together and remembers the last `star` only: the pattern behind it (`wild`) and
  the text it was last tried at (`text`).  A mismatch moves that text on by one
  and starts over there.

  Main results: `append_mem_language`, `mem_star_forget`, `matcher_returns`.
-/
import MierOS.Lib.Loop
import Mathlib.Computability.Language
import Mathlib.Data.Prod.Lex

namespace MierOS.Lib.Wildcard

open Lib

variable {α : Type*} [DecidableEq α] (star any : α)

/-! ## §1. The language of a pattern. -/

/-- The strings of one character. -/
def oneChar : Language α := {s : List α | s.length = 1}

/-- What one character of a pattern matches. -/
def symbol (w : α) : Language α :=
  if w = star then ⊤ else if w = any then oneChar else {[w]}

/-- **The language of a pattern.** -/
def language (ws : List α) : Language α := (ws.map (symbol star any)).prod

variable {star any}

theorem mem_symbol_star (s : List α) : s ∈ symbol star any star := by
  unfold symbol
  rw [if_pos rfl]
  trivial

/-- Anything but a star matches one character. -/
theorem mem_symbol {w : α} (hw : w ≠ star) {s : List α} :
    s ∈ symbol star any w ↔ ∃ c, s = [c] ∧ (w = any ∨ w = c) := by
  unfold symbol
  rw [if_neg hw]
  by_cases hany : w = any
  · rw [if_pos hany]
    show s.length = 1 ↔ _
    rw [List.length_eq_one_iff]
    exact ⟨fun ⟨c, hc⟩ => ⟨c, hc, Or.inl hany⟩, fun ⟨c, hc, _⟩ => ⟨c, hc⟩⟩
  · rw [if_neg hany]
    show s = [w] ↔ _
    constructor
    · intro hs
      exact ⟨w, hs, Or.inr rfl⟩
    · rintro ⟨c, hs, hw'⟩
      rw [hs, hw'.resolve_left hany]

theorem mem_language_nil {s : List α} : s ∈ language star any [] ↔ s = [] := Language.mem_one s

theorem mem_language_cons {w : α} {ws s : List α} :
    s ∈ language star any (w :: ws) ↔
      ∃ x ∈ symbol star any w, ∃ y ∈ language star any ws, x ++ y = s := by
  unfold language
  rw [List.map_cons, List.prod_cons, Language.mem_mul]

theorem mem_language_append {ws ws' s : List α} :
    s ∈ language star any (ws ++ ws') ↔
      ∃ x ∈ language star any ws, ∃ y ∈ language star any ws', x ++ y = s := by
  unfold language
  rw [List.map_append, List.prod_append, Language.mem_mul]

/-- **A star**: some suffix matches the rest of the pattern. -/
theorem mem_star {ws s : List α} :
    s ∈ language star any (star :: ws) ↔ ∃ x y, x ++ y = s ∧ y ∈ language star any ws := by
  rw [mem_language_cons]
  constructor
  · rintro ⟨x, _, y, hy, hs⟩
    exact ⟨x, y, hs, hy⟩
  · rintro ⟨x, y, hs, hy⟩
    exact ⟨x, mem_symbol_star x, y, hy, hs⟩

/-- Any other character takes one off the text. -/
theorem mem_char {w : α} (hw : w ≠ star) {ws s : List α} :
    s ∈ language star any (w :: ws) ↔
      ∃ c t, s = c :: t ∧ (w = any ∨ w = c) ∧ t ∈ language star any ws := by
  rw [mem_language_cons]
  constructor
  · rintro ⟨x, hx, y, hy, hs⟩
    obtain ⟨c, rfl, hc⟩ := (mem_symbol hw).mp hx
    exact ⟨c, y, hs.symm, hc, hy⟩
  · rintro ⟨c, t, hs, hc, ht⟩
    exact ⟨[c], (mem_symbol hw).mpr ⟨c, rfl, hc⟩, t, ht, hs.symm⟩

/-- A star in front of more text: it stops here, or takes one character. -/
theorem mem_star_cons {ws t : List α} {c : α} :
    c :: t ∈ language star any (star :: ws) ↔
      c :: t ∈ language star any ws ∨ t ∈ language star any (star :: ws) := by
  rw [mem_star, mem_star]
  constructor
  · rintro ⟨x, y, hs, hy⟩
    cases x with
    | nil => exact Or.inl (hs ▸ hy)
    | cons d x => exact Or.inr ⟨x, y, (List.cons.inj hs).2, hy⟩
  · rintro (hy | ⟨x, y, hs, hy⟩)
    · exact ⟨[], c :: t, rfl, hy⟩
    · exact ⟨c :: x, y, congrArg (c :: ·) hs, hy⟩

/-- A star can take what stands in front of what it takes. -/
theorem mem_star_of_suffix {ws x t : List α} (h : t ∈ language star any (star :: ws)) :
    x ++ t ∈ language star any (star :: ws) := by
  obtain ⟨y, z, hs, hz⟩ := mem_star.mp h
  exact mem_star.mpr ⟨x ++ y, z, by rw [List.append_assoc, hs], hz⟩

/-- **At the end of the text** only stars may be left. -/
theorem nil_mem_language {ws : List α} :
    [] ∈ language star any ws ↔ (ws.dropWhile (· = star)).isEmpty = true := by
  induction ws with
  | nil => simp [mem_language_nil]
  | cons w ws ih =>
      by_cases hw : w = star
      · subst hw
        rw [List.dropWhile_cons_of_pos (by simp), ← ih, mem_star]
        simp
      · rw [List.dropWhile_cons_of_neg (by simpa using hw), mem_char hw]
        simp

/-! ## §2. A stretch without stars. -/

/-- A star-free stretch matches strings of its own length. -/
theorem length_of_mem {seg used : List α} (hseg : star ∉ seg)
    (h : used ∈ language star any seg) : used.length = seg.length := by
  induction seg generalizing used with
  | nil => rw [mem_language_nil.mp h]
  | cons w seg ih =>
      rw [List.mem_cons, not_or] at hseg
      obtain ⟨c, t, rfl, _, ht⟩ := (mem_char (Ne.symm hseg.1)).mp h
      rw [List.length_cons, List.length_cons, ih hseg.2 ht]

/-- **What the stretch has matched comes off.** -/
theorem append_mem_language {seg used rest ws : List α} (hseg : star ∉ seg)
    (hused : used ∈ language star any seg) :
    used ++ rest ∈ language star any (seg ++ ws) ↔ rest ∈ language star any ws := by
  rw [mem_language_append]
  constructor
  · rintro ⟨x, hx, y, hy, hs⟩
    -- the stretch takes as much as before, so the split is the same
    have hlen : x.length = used.length := (length_of_mem hseg hx).trans (length_of_mem hseg hused).symm
    exact (List.append_inj hs hlen).2 ▸ hy
  · intro hrest
    exact ⟨used, hused, rest, hrest, rfl⟩

/-- **An earlier star can be forgotten** at the next one. -/
theorem mem_star_forget {seg used rest ws : List α} (hseg : star ∉ seg)
    (hused : used ∈ language star any seg) :
    used ++ rest ∈ language star any (star :: (seg ++ star :: ws)) ↔
      rest ∈ language star any (star :: ws) := by
  constructor
  · intro h
    obtain ⟨x, y, hs, hy⟩ := mem_star.mp h
    obtain ⟨used', hused', z, hz, rfl⟩ := mem_language_append.mp hy
    -- `z` starts behind as much text as `used` at least: what lies between goes to the later star
    have hlen : used'.length = used.length :=
      (length_of_mem hseg hused').trans (length_of_mem hseg hused).symm
    rw [← List.append_assoc] at hs
    obtain ⟨u, hu⟩ | ⟨u, hu⟩ := List.append_eq_append_iff.mp hs
    · have hzero : u = [] := by
        have h := congrArg List.length hu.1
        simp only [List.length_append] at h
        exact List.eq_nil_of_length_eq_zero (by omega)
      rw [hu.2, hzero] at hz
      exact hz
    · rw [hu.2]
      exact mem_star_of_suffix hz
  · intro h
    exact mem_star.mpr ⟨[], used ++ rest, rfl, (append_mem_language hseg hused).mpr h⟩

/-- The last try of a star at this text, when the text is at its end. -/
theorem mem_star_end {seg used ws : List α} (hseg : star ∉ seg)
    (hused : used ∈ language star any seg) :
    used ∈ language star any (star :: (seg ++ ws)) ↔ [] ∈ language star any ws := by
  constructor
  · intro h
    obtain ⟨x, y, hs, hy⟩ := mem_star.mp h
    obtain ⟨used', hused', z, hz, rfl⟩ := mem_language_append.mp hy
    have hlen : used'.length = used.length :=
      (length_of_mem hseg hused').trans (length_of_mem hseg hused).symm
    have hzero : z = [] := by
      have h := congrArg List.length hs
      simp only [List.length_append] at h
      exact List.eq_nil_of_length_eq_zero (by omega)
    exact hzero ▸ hz
  · intro h
    have happend : used ++ [] ∈ language star any (seg ++ ws) :=
      (append_mem_language hseg hused).mpr h
    rw [List.append_nil] at happend
    exact mem_star.mpr ⟨[], used, rfl, happend⟩

/-! ## §3. The matcher. -/

/-- What is left of pattern and text, and the backtrack point. -/
structure State (α : Type*) where
  wild : List α
  text : List α
  backup : Option (List α × List α)

/-- A mismatch: the last star takes one character more. -/
def retry : Option (List α × List α) → State α ⊕ Bool
  | some (wild, _ :: text) => .inl ⟨wild, text, some (wild, text)⟩
  | _ => .inr false

variable (star any) in
/-- **One round.** -/
def round (s : State α) : State α ⊕ Bool :=
  match s.text with
  | [] => .inr (s.wild.dropWhile (· = star)).isEmpty
  | c :: text =>
      match s.wild with
      | w :: wild =>
          if w = star then .inl ⟨wild, c :: text, some (wild, c :: text)⟩
          else if w = any ∨ w = c then .inl ⟨wild, text, s.backup⟩
          else retry s.backup
      | [] => retry s.backup

theorem round_star {w c : α} {wild text : List α} {backup : Option (List α × List α)}
    (hw : w = star) : round star any ⟨w :: wild, c :: text, backup⟩
      = .inl ⟨wild, c :: text, some (wild, c :: text)⟩ := by
  simp only [round, if_pos hw]

theorem round_char {w c : α} {wild text : List α} {backup : Option (List α × List α)}
    (hw : w ≠ star) (hc : w = any ∨ w = c) :
    round star any ⟨w :: wild, c :: text, backup⟩ = .inl ⟨wild, text, backup⟩ := by
  simp only [round, if_neg hw, if_pos hc]

theorem round_mismatch {w c : α} {wild text : List α} {backup : Option (List α × List α)}
    (hw : w ≠ star) (hc : ¬ (w = any ∨ w = c)) :
    round star any ⟨w :: wild, c :: text, backup⟩ = retry backup := by
  simp only [round, if_neg hw, if_neg hc]

variable (star any) in
/-- **The invariant**: the match of the whole pattern stands and falls with a match
at the backtrack point, where the stretch since the star has matched so far. -/
def Inv (accepts : Prop) (s : State α) : Prop :=
  match s.backup with
  | none => accepts ↔ s.text ∈ language star any s.wild
  | some (wild, text) => ∃ seg used, star ∉ seg ∧ used ∈ language star any seg
      ∧ wild = seg ++ s.wild ∧ text = used ++ s.text
      ∧ (accepts ↔ text ∈ language star any (star :: wild))

/-- What a round lowers: the pattern behind the last star, the text it is tried at,
the text left. -/
def rank (s : State α) : Nat ×ₗ Nat ×ₗ Nat :=
  match s.backup with
  | none => toLex (s.wild.length + 1, toLex (0, s.text.length))
  | some (wild, text) => toLex (wild.length, toLex (text.length, s.text.length))

section Rounds

variable {accepts : Prop} {wild text : List α} {backup : Option (List α × List α)} {c w : α}

theorem inv_star (h : Inv star any accepts ⟨star :: wild, text, backup⟩) :
    Inv star any accepts ⟨wild, text, some (wild, text)⟩ := by
  refine ⟨[], [], List.not_mem_nil, mem_language_nil.mpr rfl, rfl, rfl, ?_⟩
  cases backup with
  | none => exact h
  | some point =>
      obtain ⟨seg, used, hseg, hused, hwild, htext, hacc⟩ := h
      rw [hacc, hwild, htext]
      exact mem_star_forget hseg hused

theorem inv_char (hw : w ≠ star) (hc : w = any ∨ w = c)
    (h : Inv star any accepts ⟨w :: wild, c :: text, backup⟩) :
    Inv star any accepts ⟨wild, text, backup⟩ := by
  cases backup with
  | none =>
      have hstep : c :: text ∈ language star any (w :: wild) ↔ text ∈ language star any wild := by
        rw [mem_char hw]
        constructor
        · rintro ⟨d, t, heq, _, ht⟩
          exact (List.cons.inj heq).2 ▸ ht
        · intro ht
          exact ⟨c, text, rfl, hc, ht⟩
      exact Iff.trans h hstep
  | some point =>
      obtain ⟨seg, used, hseg, hused, hwild, htext, hacc⟩ := h
      refine ⟨seg ++ [w], used ++ [c], ?_, ?_, ?_, ?_, hacc⟩
      · rw [List.mem_append, List.mem_singleton, not_or]
        exact ⟨hseg, Ne.symm hw⟩
      · rw [append_mem_language hseg hused, mem_char hw]
        exact ⟨c, [], rfl, hc, mem_language_nil.mpr rfl⟩
      · rw [hwild, List.append_assoc]
        rfl
      · rw [htext, List.append_assoc]
        rfl

/-- **A mismatch**: out without a star behind it; with one, the star takes one
character more. -/
theorem retry_spec (hmis : c :: text ∉ language star any wild)
    (h : Inv star any accepts ⟨wild, c :: text, backup⟩) :
    (∃ s', retry backup = .inl s' ∧ Inv star any accepts s' ∧
        rank s' < rank ⟨wild, c :: text, backup⟩) ∨
      ∃ r, retry backup = .inr r ∧ (r = true ↔ accepts) := by
  cases backup with
  | none =>
      have hacc : ¬ accepts := fun hacc => hmis (h.mp hacc)
      exact Or.inr ⟨false, rfl, by simpa using hacc⟩
  | some point =>
      obtain ⟨bwild, btext⟩ := point
      obtain ⟨seg, used, hseg, hused, hwild, htext, hacc⟩ := h
      cases btext with
      | nil => exact absurd (congrArg List.length htext) (by simp)
      | cons d btext =>
          -- the try at this text has failed
          have hfail : d :: btext ∉ language star any bwild := by
            rw [htext, hwild, append_mem_language hseg hused]
            exact hmis
          refine Or.inl ⟨_, rfl, ⟨[], [], List.not_mem_nil, mem_language_nil.mpr rfl, rfl, rfl, ?_⟩, ?_⟩
          · rw [hacc, mem_star_cons]
            exact or_iff_right hfail
          · simp [rank, Prod.Lex.lt_iff]

theorem inv_end (h : Inv star any accepts ⟨wild, [], backup⟩) :
    accepts ↔ (wild.dropWhile (· = star)).isEmpty = true := by
  have hnil : [] ∈ language star any wild ↔ _ := nil_mem_language
  rw [← hnil]
  cases backup with
  | none => exact h
  | some point =>
      obtain ⟨seg, used, hseg, hused, hwild, htext, hacc⟩ := h
      rw [hacc, htext, hwild, List.append_nil]
      exact mem_star_end hseg hused

end Rounds

/-- **One round**: on with the invariant and a lower rank, or out with the answer. -/
theorem round_spec {accepts : Prop} {s : State α} (h : Inv star any accepts s) :
    (∃ s', round star any s = .inl s' ∧ Inv star any accepts s' ∧ rank s' < rank s) ∨
      ∃ r, round star any s = .inr r ∧ (r = true ↔ accepts) := by
  obtain ⟨wild, text, backup⟩ := s
  cases text with
  | nil => exact Or.inr ⟨_, rfl, (inv_end h).symm⟩
  | cons c text =>
      cases wild with
      | nil => exact retry_spec (by simp [mem_language_nil]) h
      | cons w wild =>
          by_cases hw : w = star
          · rw [hw] at h
            refine Or.inl ⟨_, round_star hw, inv_star h, ?_⟩
            cases backup with
            | none =>
                simp only [rank, List.length_cons, Prod.Lex.lt_iff, ofLex_toLex]
                omega
            | some point =>
                obtain ⟨seg, used, _, _, hwild, _⟩ := h
                have hlen := congrArg List.length hwild
                simp only [List.length_append, List.length_cons] at hlen
                simp only [rank, Prod.Lex.lt_iff, ofLex_toLex]
                omega
          · by_cases hc : w = any ∨ w = c
            · refine Or.inl ⟨_, round_char hw hc, inv_char hw hc h, ?_⟩
              cases backup with
              | none => simp [rank, Prod.Lex.lt_iff]
              | some point => simp [rank, Prod.Lex.lt_iff]
            · have hmis : c :: text ∉ language star any (w :: wild) := by
                rw [mem_char hw]
                rintro ⟨d, t, heq, hd, _⟩
                exact hc ((List.cons.inj heq).1 ▸ hd)
              rw [round_mismatch hw hc]
              exact retry_spec hmis h

variable (star any) in
/-- **The matcher ends and accepts the language of the pattern.** -/
theorem matcher_returns (wild text : List α) :
    ∃ r, Loop.Returns (round star any) ⟨wild, text, none⟩ r ∧
      (r = true ↔ text ∈ language star any wild) :=
  Loop.returns_of_wellFounded wellFounded_lt (Inv star any (text ∈ language star any wild)) rank
    (fun r => r = true ↔ text ∈ language star any wild) (fun _ => round_spec) Iff.rfl

end MierOS.Lib.Wildcard
